import Seedling.Proofs.Grammar.WellFormed
import Seedling.Proofs.Regex.Combinators
import Seedling.Proofs.Regex.Tagged
import Seedling.Regex.Pattern

/-!
Patterns have no notation for tags, so that what is read from one has none. Each operator keeps
expressions free of them, and so does each step of the reader, which has all it has read so far
in its levels.
-/

namespace Seedling.Regex

open Grammar (bind_eq_ok)

/-! ### Operators -/

theorem untagged_alternatives {rs : List Regex} (h : ∀ r ∈ rs, r.Untagged) :
    (alternatives rs).Untagged := by
  fun_induction alternatives rs with
  | case1 => trivial
  | case2 a => exact h a List.mem_cons_self
  | case3 a rest _ ih =>
      rw [List.forall_mem_cons] at h
      exact ⟨h.1, ih h.2⟩

theorem untagged_mergeLiterals {rs : List Regex} (h : ∀ r ∈ rs, r.Untagged) :
    ∀ r ∈ mergeLiterals rs, r.Untagged := by
  fun_induction mergeLiterals rs with
  | case1 => exact h
  | case2 bs rest cs rest' heq ih =>
      rw [List.forall_mem_cons] at h ⊢
      have hrest := ih h.2
      rw [heq, List.forall_mem_cons] at hrest
      exact ⟨trivial, hrest.2⟩
  | case3 bs rest _ ih =>
      rw [List.forall_mem_cons] at h ⊢
      exact ⟨trivial, ih h.2⟩
  | case4 a rest _ ih =>
      rw [List.forall_mem_cons] at h ⊢
      exact ⟨h.1, ih h.2⟩

theorem untagged_foldl_concat {a : Regex} {rs : List Regex} (ha : a.Untagged)
    (h : ∀ r ∈ rs, r.Untagged) : (rs.foldl .concat a).Untagged := by
  induction rs generalizing a with
  | nil => exact ha
  | cons r rs ih =>
      rw [List.forall_mem_cons] at h
      exact ih ⟨ha, h.1⟩ h.2

theorem untagged_sequence {rs : List Regex} (h : ∀ r ∈ rs, r.Untagged) :
    (sequence rs).Untagged := by
  have hmerged := untagged_mergeLiterals h
  rw [sequence]
  cases hrs : mergeLiterals rs with
  | nil => trivial
  | cons a rest =>
      rw [hrs, List.forall_mem_cons] at hmerged
      exact untagged_foldl_concat hmerged.1 hmerged.2

theorem untagged_optional {r : Regex} (h : r.Untagged) : r.optional.Untagged := ⟨h, trivial⟩

theorem untagged_repeat {r : Regex} (h : r.Untagged) (min : Nat) (max : Option Nat) :
    (r.repeat min max).Untagged := by
  have hreplicate : ∀ (s : Regex) (n : Nat), s.Untagged → ∀ r ∈ List.replicate n s, r.Untagged :=
    fun s n hs r hr => List.eq_of_mem_replicate hr ▸ hs
  cases max with
  | none =>
      refine untagged_sequence (List.forall_mem_append.2 ⟨hreplicate r min h, ?_⟩)
      exact List.forall_mem_singleton.2 h
  | some max =>
      rw [Regex.repeat]
      split
      · trivial
      · refine untagged_sequence (List.forall_mem_append.2 ⟨hreplicate r min h, ?_⟩)
        exact hreplicate _ _ (untagged_optional h)

theorem untagged_ofByteSet (set : UInt8 → Bool) : (ofByteSet set).Untagged := by
  refine untagged_alternatives fun r hr => ?_
  obtain ⟨run, -, rfl⟩ := List.mem_map.1 hr
  trivial

/-! ### Reading -/

/-- Nothing that has been read has tags. -/
structure Level.Untagged (level : Level) : Prop where
  branches : ∀ r ∈ level.branches, r.Untagged
  items : ∀ r ∈ level.items, r.Untagged

theorem Level.untagged_empty : Level.empty.Untagged :=
  ⟨List.forall_mem_nil _, List.forall_mem_nil _⟩

theorem Level.Untagged.push {level : Level} (h : level.Untagged) {r : Regex} (hr : r.Untagged) :
    (level.push r).Untagged :=
  ⟨h.branches, List.forall_mem_cons.2 ⟨hr, h.items⟩⟩

theorem Level.Untagged.branch {level : Level} (h : level.Untagged) : level.branch.Untagged := by
  refine ⟨List.forall_mem_cons.2 ⟨untagged_sequence fun r hr => ?_, h.branches⟩,
    List.forall_mem_nil _⟩
  exact h.items r (List.mem_reverse.1 hr)

theorem Level.Untagged.close {level : Level} (h : level.Untagged) : level.close.Untagged :=
  untagged_alternatives fun r hr => h.branch.branches r (List.mem_reverse.1 hr)

theorem untagged_characterClass {opened stop : Nat} {cs : List UInt8} {r : Regex}
    (h : characterClass opened cs = .ok (r, stop)) : r.Untagged := by
  cases cs with
  | nil => contradiction
  | cons c rest =>
      rw [characterClass] at h
      by_cases hnegated : isChar c '^' = true
      · rw [if_pos hnegated] at h
        obtain ⟨found, -, h⟩ := bind_eq_ok.1 h
        cases h
        exact untagged_ofByteSet _
      · rw [if_neg hnegated] at h
        obtain ⟨found, -, h⟩ := bind_eq_ok.1 h
        cases h
        exact untagged_ofByteSet _

theorem untagged_atom {pos n : Nat} {c : UInt8} {rest : List UInt8} {r : Regex}
    (h : atom pos c rest = .ok (r, n)) : r.Untagged := by
  rw [atom] at h
  split at h
  · obtain ⟨⟨r', stop⟩, hclass, h⟩ := bind_eq_ok.1 h
    cases h
    exact untagged_characterClass hclass
  · split at h
    · cases h
      trivial
    · split at h
      · split at h
        · contradiction
        · cases h
          trivial
        · cases h
          exact untagged_ofByteSet _
      · split at h
        · contradiction
        · cases h
          trivial

theorem untagged_quantified {pos n : Nat} {c : UInt8} {rest : List UInt8} {r r' : Regex}
    (hr : r.Untagged) (h : quantified pos r c rest = .ok (some (r', n))) : r'.Untagged := by
  rw [quantified] at h
  split at h
  · cases h
    exact hr
  · split at h
    · cases h
      exact ⟨hr, hr⟩
    · split at h
      · cases h
        exact untagged_optional hr
      · split at h
        · split at h
          · cases h
          · split at h
            · split at h
              · contradiction
              · cases h
                exact untagged_repeat hr _ _
            · cases h
              exact untagged_repeat hr _ _
        · cases h

theorem untagged_item {pos n : Nat} {c : UInt8} {rest : List UInt8} {level level' : Level}
    (hlevel : level.Untagged) (h : item pos level c rest = .ok (level', n)) : level'.Untagged := by
  have hpush : ∀ {x : Except Located (Regex × Nat)}, x = atom pos c rest →
      (x >>= fun found => .ok (level.push found.1, found.2)) = .ok (level', n) →
        level'.Untagged := by
    intro x hx hok
    obtain ⟨⟨r, m⟩, hatom, hok⟩ := bind_eq_ok.1 hok
    cases hok
    exact hlevel.push (untagged_atom (hx.symm.trans hatom))
  rw [item] at h
  cases hitems : level.items with
  | nil =>
      rw [hitems] at h
      exact hpush rfl h
  | cons last items =>
      rw [hitems] at h
      have hall := hlevel.items
      rw [hitems, List.forall_mem_cons] at hall
      obtain ⟨found, hquantified, h⟩ := bind_eq_ok.1 h
      cases found with
      | none => exact hpush rfl h
      | some found =>
          obtain ⟨r, m⟩ := found
          cases h
          exact ⟨hlevel.branches,
            List.forall_mem_cons.2 ⟨untagged_quantified hall.1 hquantified, hall.2⟩⟩

/-- Step by step, by induction on what is left to read. -/
theorem untagged_readFrom {pos : Nat} {level : Level} {outer : List (Nat × Level)}
    {cs : List UInt8} {r : Regex}
    (hlevel : level.Untagged) (houter : ∀ up ∈ outer, up.2.Untagged)
    (h : readFrom pos level outer cs = .ok r) : r.Untagged := by
  fun_induction readFrom pos level outer cs with
  | case1 pos level =>
      cases h
      exact hlevel.close
  | case2 => contradiction
  | case3 pos level outer c rest _ ih => exact ih hlevel.branch houter h
  | case4 pos level outer c rest _ _ ih =>
      exact ih Level.untagged_empty (List.forall_mem_cons.2 ⟨hlevel, houter⟩) h
  | case5 => contradiction
  | case6 pos level c rest _ _ _ opened up outer ih =>
      rw [List.forall_mem_cons] at houter
      exact ih (houter.1.push hlevel.close) houter.2 h
  | case7 => contradiction
  | case8 pos level outer c rest _ _ _ level' n hitem ih =>
      exact ih (untagged_item hlevel hitem) houter h

/-- What a pattern denotes has no tags. -/
theorem untagged_of_parse {pattern : String} {r : Regex} (h : parse pattern = .ok r) :
    r.Untagged := by
  rw [parse] at h
  cases hread : readFrom 0 .empty [] (Text.bytes pattern) with
  | ok r' =>
      rw [hread] at h
      cases h
      exact untagged_readFrom Level.untagged_empty (List.forall_mem_nil _) hread
  | error e =>
      rw [hread] at h
      contradiction

end Seedling.Regex
