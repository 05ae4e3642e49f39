import Mathlib.Data.List.TakeWhile
import Seedling.Proofs.Regex.ClassReader

/-!
Counts, atoms that are no groups and quantifiers are read as they are written. Bounds are the
exception: an upper bound that is too large is read as none. This makes no difference to whether
they are in order, for a lower bound that can be read is below it.
-/

namespace Seedling.Regex

/-! ### Counts -/

theorem digits_takeWhile {cs : List UInt8} (h : cs.takeWhile isDigit ≠ []) :
    Digits (cs.takeWhile isDigit) :=
  ⟨h, fun _ hb => List.mem_takeWhile_imp hb⟩

theorem decimal_eq {ds : List UInt8} (hds : ds ≠ []) :
    decimal ds = (some (numeral 10 ds)).filter (· < UInt64.size) := by
  rw [decimal, if_neg (by simpa using hds)]
  rfl

theorem decimal_eq_some {ds : List UInt8} (hds : ds ≠ [])
    (hlower : Dialect.lenient.lower ds = true) : decimal ds = some (numeral 10 ds) := by
  rw [decimal_eq hds, Option.filter_some]
  exact if_pos hlower

theorem count_exactly {ds : List UInt8} (hds : Digits ds) (hlower : Dialect.lenient.lower ds = true)
    (rest : List UInt8) : count (ds ++ '\x7d'.toUInt8 :: rest) =
      some (numeral 10 ds, some (numeral 10 ds), ds.length + 1) := by
  rw [count, takeWhile_digits hds.2 rfl, decimal_eq_some hds.1 hlower, List.drop_left]
  exact if_pos (isChar_self (by decide))

theorem count_comma {ds es : List UInt8} (hds : Digits ds)
    (hlower : Dialect.lenient.lower ds = true)
    (hes : ∀ b ∈ es, isDigit b = true) (rest : List UInt8) :
    count (ds ++ ','.toUInt8 :: (es ++ '\x7d'.toUInt8 :: rest)) =
      some (numeral 10 ds, decimal es, ds.length + es.length + 2) := by
  rw [count, takeWhile_digits hds.2 rfl, decimal_eq_some hds.1 hlower, List.drop_left]
  dsimp only
  rw [if_neg (by decide), if_pos (isChar_self (by decide)), takeWhile_digits hes rfl,
    List.drop_left]
  exact if_pos (isChar_self (by decide))

theorem count_complete {min : Nat} {max : Option Nat} {cs rest : List UInt8}
    (h : Count .lenient min max cs rest) :
    ∃ n, count cs = some (min, max.filter (· < UInt64.size), n) ∧ n ≤ cs.length ∧
      rest = cs.drop n := by
  cases h with
  | @exactly ds rest hds hlower =>
      refine ⟨ds.length + 1, ?_, by simp, by simp⟩
      rw [count_exactly hds hlower, ← decimal_eq hds.1, decimal_eq_some hds.1 hlower]
  | @atLeast ds rest hds hlower =>
      exact ⟨ds.length + 2, @count_comma ds [] hds hlower (List.forall_mem_nil _) rest,
        by simp, by simp⟩
  | @between ds es rest hds hlower hes =>
      refine ⟨ds.length + es.length + 2, ?_, by simp; omega, ?_⟩
      · rw [count_comma hds hlower hes.2, ← decimal_eq hes.1]
      · rw [show ds.length + es.length + 2 = ds.length + (es.length + 1 + 1) by
          omega, ← List.drop_drop, List.drop_left, List.drop_succ_cons]
        simp

theorem of_decimal_eq_some {ds : List UInt8} {n : Nat} (h : decimal ds = some n) :
    ds ≠ [] ∧ Dialect.lenient.lower ds = true ∧ n = numeral 10 ds := by
  have hds : ds ≠ [] := by
    rintro rfl
    contradiction
  rw [decimal_eq hds, Option.filter_eq_some_iff] at h
  obtain ⟨hn, hlt⟩ := h
  cases hn
  exact ⟨hds, hlt, rfl⟩

theorem exists_count {cs : List UInt8} {result : Nat × Option Nat × Nat}
    (h : count cs = some result) : ∃ min max rest, Count .lenient min max cs rest := by
  have hsplit := List.prefix_iff_eq_append.1 (List.takeWhile_prefix isDigit (l := cs))
  rw [count] at h
  dsimp only at h
  split at h
  · rename_i b rest hmin hdrop
    obtain ⟨hne, hlower, rfl⟩ := of_decimal_eq_some hmin
    have hds := digits_takeWhile hne
    rw [hdrop] at hsplit
    rw [← hsplit]
    split at h
    · rename_i hb
      rw [isChar_iff (by decide)] at hb
      subst hb
      exact ⟨_, _, _, .exactly hds hlower⟩
    · split at h
      · rename_i hb
        rw [isChar_iff (by decide)] at hb
        subst hb
        have hsplit' := List.prefix_iff_eq_append.1 (List.takeWhile_prefix isDigit (l := rest))
        split at h
        · rename_i b tail htail
          split at h
          · rename_i hb
            rw [isChar_iff (by decide)] at hb
            subst hb
            rw [htail] at hsplit'
            rw [← hsplit']
            by_cases hupper : rest.takeWhile isDigit = []
            · rw [hupper]
              exact ⟨_, _, _, .atLeast hds hlower⟩
            · exact ⟨_, _, _, .between hds hlower (digits_takeWhile hupper)⟩
          · contradiction
        · contradiction
      · contradiction
  · contradiction

/-- Counts are read as they are written, but an upper bound that is too large to be read is none. -/
theorem count_sound {min n : Nat} {max : Option Nat} {cs : List UInt8}
    (h : count cs = some (min, max, n)) : n ≤ cs.length ∧
      ∃ max', Count .lenient min max' cs (cs.drop n) ∧ max = max'.filter (· < UInt64.size) := by
  -- that some count is there is enough, for reading is complete and gives one answer
  obtain ⟨_, max', rest, hcount⟩ := exists_count h
  obtain ⟨_, hread, hn, rfl⟩ := count_complete hcount
  cases h.symm.trans hread
  exact ⟨hn, max', hcount, rfl⟩

/-! ### Items -/

theorem reads_byte {α : Type} {phrase : List UInt8 → Prop} {cs : List UInt8} {limit : Nat} {a : α}
    (h : ∀ rest, phrase rest ↔ cs = rest) : Reads phrase cs 0 limit (.ok (a, 0)) :=
  ⟨Nat.le_refl 0, Nat.zero_le _, fun rest => (h rest).trans eq_comm⟩

theorem atom_reads_bracket (pos : Nat) (cs : List UInt8) :
    Reads (Spells .lenient .atom ('['.toUInt8 :: cs)) cs 0 (pos + 1 + cs.length)
      (atom pos '['.toUInt8 cs) := by
  have hclass : ∀ rest, Spells .lenient .atom ('['.toUInt8 :: cs) rest ↔
      Class .lenient cs rest := by
    intro rest
    simp +decide only [atom_iff, false_and, true_and, false_or, or_false]
  have hreads := ((characterClass_reads pos cs).congr hclass).map_sub
  rw [atom, if_pos (isChar_self (by decide))]
  rcases hread : characterClass pos cs with _ | _ <;> rw [hread] at hreads <;> exact hreads

theorem atom_reads_escape (pos : Nat) (cs : List UInt8) :
    Reads (Spells .lenient .atom ('\\'.toUInt8 :: cs)) cs 0 (pos + 1 + cs.length)
      (atom pos '\\'.toUInt8 cs) := by
  have hescape : ∀ rest, Spells .lenient .atom ('\\'.toUInt8 :: cs) rest ↔
      ∃ v, Escape .lenient false v cs rest := by
    intro rest
    simp +decide only [atom_iff, false_and, true_and, false_or, or_false]
  have hreads := escape_reads false cs
  rw [atom, if_neg (by decide), if_neg (by decide), if_pos (isChar_self (by decide))]
  rcases hread : escape false cs with _ | ⟨e, n⟩ <;> rw [hread] at hreads
  · refine ⟨by dsimp only; omega, fun rest h => ?_⟩
    obtain ⟨v, h⟩ := (hescape rest).1 h
    exact hreads v rest h
  · have hrest : ∀ rest, Spells .lenient .atom ('\\'.toUInt8 :: cs) rest ↔ rest = cs.drop n := by
      intro rest
      simp only [hescape, hreads.2, exists_eq_left]
    rcases e with _ | _ <;> exact ⟨Nat.zero_le n, by have := hreads.1; omega, hrest⟩

theorem atom_reads (pos : Nat) {c : UInt8} (cs : List UInt8) (hc : c ∉ separators) :
    Reads (Spells .lenient .atom (c :: cs)) cs 0 (pos + 1 + cs.length) (atom pos c cs) := by
  by_cases hbracket : c = '['.toUInt8
  · exact hbracket ▸ atom_reads_bracket pos cs
  by_cases hbackslash : c = '\\'.toUInt8
  · exact hbackslash ▸ atom_reads_escape pos cs
  have hsigns : (isChar c '*' || isChar c '+' || isChar c '?') = true ↔ c ∈ signs := by
    simp (disch := decide) only [signs, Bool.or_eq_true, isChar_iff, List.map_cons, List.map_nil,
      List.mem_cons, List.not_mem_nil, or_false, or_assoc]
  have hbyte : c ∉ signs → ∀ rest, Spells .lenient .atom (c :: cs) rest ↔ cs = rest := by
    intro hsign rest
    have hgroup : c ≠ '('.toUInt8 := List.ne_of_not_mem_cons hc
    simp only [atom_iff, mem_reserved, hc, hgroup, hbracket, hbackslash, hsign, or_self,
      not_false_eq_true, false_and, true_and, false_or]
  rw [atom]
  simp (disch := decide) only [isChar_iff, hsigns, hbracket, hbackslash, if_false]
  split
  · rename_i hdot
    exact reads_byte (hbyte (hdot ▸ by decide))
  · split
    · rename_i hsign
      exact ⟨by dsimp only; omega, fun rest => not_atom (List.mem_append_right _ hsign)⟩
    · rename_i hsign
      exact reads_byte (hbyte hsign)

theorem Count.lt_size {min : Nat} {max : Option Nat} {cs rest : List UInt8}
    (h : Count .lenient min max cs rest) : min < UInt64.size := by
  cases h with
  | exactly _ hlower | atLeast _ hlower | between _ hlower => exact of_decide_eq_true hlower

/-- The bounds of a count are in order as they are read if they are as they are written, for one
that is too large to be read is larger than any that is not. -/
theorem ordered_iff {min n : Nat} {max : Option Nat} {cs : List UInt8}
    (h : count cs = some (min, max, n)) (rest : List UInt8) :
    (∃ min' max', Count .lenient min' max' cs rest ∧ ∀ m, max' = some m → min' ≤ m) ↔
      (∀ m, max = some m → min ≤ m) ∧ rest = cs.drop n := by
  constructor
  · rintro ⟨min', max', hcount, hordered⟩
    obtain ⟨_, hread, -, rfl⟩ := count_complete hcount
    cases h.symm.trans hread
    exact ⟨fun m hm => hordered m (Option.filter_eq_some_iff.1 hm).1, rfl⟩
  · rintro ⟨hordered, rfl⟩
    obtain ⟨-, max', hcount, rfl⟩ := count_sound h
    refine ⟨min, max', hcount, fun m hm => ?_⟩
    by_cases hlt : m < UInt64.size
    · exact hordered m (Option.filter_eq_some_iff.2 ⟨hm, decide_eq_true hlt⟩)
    · exact Nat.le_of_lt (Nat.lt_of_lt_of_le hcount.lt_size (Nat.le_of_not_lt hlt))

theorem quantified_sign {pos : Nat} {r : Regex} {c : UInt8} {cs : List UInt8} (hc : c ∈ signs) :
    ∃ r', quantified pos r c cs = .ok (some (r', 0)) := by
  simp only [signs, List.map_cons, List.map_nil, List.mem_cons, List.not_mem_nil, or_false] at hc
  rcases hc with rfl | rfl | rfl <;> exact ⟨_, rfl⟩

theorem quantified_byte {pos : Nat} {r : Regex} {c : UInt8} {cs : List UInt8} (hc : c ∉ signs)
    (hbrace : c ≠ '\x7b'.toUInt8) : quantified pos r c cs = .ok none := by
  have hsigns : ∀ {x : Char}, x ∈ ['*', '+', '?'] → x.toNat < 256 → isChar c x = false :=
    fun hx hlt => isChar_eq_false hlt fun heq => hc (heq ▸ List.mem_map_of_mem hx)
  rw [quantified]
  simp (disch := decide) only [hsigns, isChar_eq_false _ hbrace, Bool.false_eq_true, if_false]

theorem quantified_count_none {pos : Nat} {r : Regex} {cs : List UInt8} (h : count cs = none) :
    quantified pos r '\x7b'.toUInt8 cs = .ok none := by
  simp +decide only [quantified, h, if_false, if_true]

theorem quantified_count_some {pos min n : Nat} {r : Regex} {max : Option Nat} {cs : List UInt8}
    (h : count cs = some (min, max, n)) : quantified pos r '\x7b'.toUInt8 cs =
      if max.all (min ≤ ·) then .ok (some (r.repeat min max, n))
      else .error (pos, .boundsOutOfOrder min (max.getD 0)) := by
  simp +decide only [quantified, h, if_false, if_true]
  cases max with
  | none => rfl
  | some bound =>
      rcases Nat.lt_or_ge bound min with hlt | hle
      · simp [hlt]
      · simp [hle, Nat.not_lt.2 hle]

theorem quantified_reads (pos : Nat) (r : Regex) (c : UInt8) (cs : List UInt8) :
    match quantified pos r c cs with
    | .error e =>
        e.1 = pos ∧ OpensCount .lenient (c :: cs) ∧ ∀ rest, ¬ Quantifier .lenient (c :: cs) rest
    | .ok none => ¬ OpensCount .lenient (c :: cs) ∧ ∀ rest, ¬ Quantifier .lenient (c :: cs) rest
    | .ok (some (_, n)) => n ≤ cs.length ∧ (OpensCount .lenient (c :: cs) ∨ c ∈ signs) ∧
        ∀ rest, Quantifier .lenient (c :: cs) rest ↔ rest = cs.drop n := by
  by_cases hsign : c ∈ signs
  · have hne : c ≠ '\x7b'.toUInt8 := by
      rintro rfl
      exact absurd hsign (by decide)
    obtain ⟨r', hread⟩ := @quantified_sign pos r c cs hsign
    rw [hread]
    refine ⟨Nat.zero_le _, .inr hsign, fun rest => ?_⟩
    rw [quantifier_iff]
    simp only [hsign, hne, true_and, false_and, or_false, List.drop_zero, eq_comm]
  have hquantifier : ∀ rest, Quantifier .lenient (c :: cs) rest ↔ c = '\x7b'.toUInt8 ∧
      ∃ min max, Count .lenient min max cs rest ∧ ∀ m, max = some m → min ≤ m := by
    intro rest
    rw [quantifier_iff]
    simp only [hsign, false_and, false_or]
  simp only [hquantifier, opensCount_iff]
  by_cases hbrace : c = '\x7b'.toUInt8
  · subst hbrace
    simp only [true_and]
    rcases hcount : count cs with _ | ⟨min, max, n⟩
    · rw [quantified_count_none hcount]
      have hnone : ¬ ∃ min max rest, Count .lenient min max cs rest := by
        rintro ⟨min, max, rest, h⟩
        obtain ⟨n, hsome, -⟩ := count_complete h
        cases hcount.symm.trans hsome
      refine ⟨hnone, ?_⟩
      rintro rest ⟨min, max, h, -⟩
      exact hnone ⟨min, max, rest, h⟩
    · obtain ⟨hn, max', hwritten, -⟩ := count_sound hcount
      have hopens : ∃ min max rest, Count .lenient min max cs rest := ⟨_, _, _, hwritten⟩
      have hall : max.all (min ≤ ·) = true ↔ ∀ m, max = some m → min ≤ m := by
        simp only [Option.all_eq_true, decide_eq_true_eq]
      rw [quantified_count_some hcount]
      simp only [ordered_iff hcount, ← hall]
      by_cases hordered : max.all (min ≤ ·) = true
      · rw [if_pos hordered]
        exact ⟨hn, .inl hopens, fun rest => and_iff_right hordered⟩
      · rw [if_neg hordered]
        exact ⟨rfl, hopens, fun rest h => hordered h.1⟩
  · rw [quantified_byte hsign hbrace]
    exact ⟨fun h => hbrace h.1, fun rest h => hbrace h.1⟩

/-- Something has been read to which a quantifier can apply. -/
def Level.hasItem (level : Level) : Bool := !level.items.isEmpty

section Items

variable {pos : Nat} {level : Level} {c : UInt8} {cs : List UInt8}

theorem item_nil (h : level.items = []) :
    item pos level c cs = (atom pos c cs).map fun (r, n) => (level.push r, n) := by
  rw [item, h]
  rcases atom pos c cs with _ | _ <;> rfl

theorem item_cons {last : Regex} {items : List Regex} (h : level.items = last :: items) :
    item pos level c cs = (quantified pos last c cs).bind fun
      | some (r, n) => .ok ({ level with items := r :: items }, n)
      | none => (atom pos c cs).map fun (r, n) => (level.push r, n) := by
  rw [item, h]
  dsimp only
  rcases quantified pos last c cs with _ | (_ | _)
  · rfl
  · rcases atom pos c cs with _ | _ <;> rfl
  · rfl

/-- The next item of a branch is read as it is written. -/
theorem item_reads (pos : Nat) (level : Level) (cs : List UInt8) (hc : c ∉ separators) :
    Reads (Piece .lenient level.hasItem (c :: cs)) cs 0 (pos + 1 + cs.length)
      (item pos level c cs) := by
  have hatom := (atom_reads pos cs hc).map level.push
  rcases hitems : level.items with _ | ⟨last, items⟩
  · have hempty : level.hasItem = false := by rw [Level.hasItem, hitems]; rfl
    rw [item_nil hitems]
    refine hatom.congr fun rest => ?_
    simp only [Piece, hempty, Bool.false_eq_true, false_and, false_or, false_imp_iff, true_and]
  · have hsome : level.hasItem = true := by rw [Level.hasItem, hitems]; rfl
    have hquantified := quantified_reads pos last c cs
    rw [item_cons hitems]
    rcases hread : quantified pos last c cs with e | (_ | ⟨r, n⟩) <;> rw [hread] at hquantified
    · obtain ⟨hpos, hopens, hnone⟩ := hquantified
      refine ⟨by rw [hpos]; omega, fun rest => ?_⟩
      simp only [Piece, hsome, true_and, hnone, hopens, false_or, forall_const, not_true, false_and,
        not_false_eq_true]
    · obtain ⟨hopens, hnone⟩ := hquantified
      refine hatom.congr fun rest => ?_
      simp only [Piece, hsome, true_and, hnone, hopens, false_or, forall_const, not_false_eq_true]
    · obtain ⟨hn, hopens, hread⟩ := hquantified
      refine ⟨Nat.zero_le n, by omega, fun rest => ?_⟩
      -- a sign is no atom, and a brace is none after an item if it opens a count
      have hnot : ¬ (¬ OpensCount .lenient (c :: cs) ∧ Spells .lenient .atom (c :: cs) rest) := by
        rintro ⟨hclosed, hspells⟩
        exact not_atom (List.mem_append_right _ (hopens.resolve_left hclosed)) hspells
      simp only [Piece, hsome, true_and, hread, forall_const, hnot, or_false, Nat.sub_zero]

theorem hasItem_of_item {level' : Level} {n : Nat} (h : item pos level c cs = .ok (level', n)) :
    level'.hasItem = true := by
  have hatom : ((atom pos c cs).map fun (r, n) => (level.push r, n)) = .ok (level', n) →
      level'.hasItem = true := by
    intro h
    rcases hread : atom pos c cs with _ | _ <;> rw [hread] at h <;> cases h
    rfl
  rcases hitems : level.items with _ | ⟨last, items⟩
  · exact hatom (item_nil hitems ▸ h)
  · rw [item_cons hitems] at h
    rcases hread : quantified pos last c cs with _ | (_ | _) <;> rw [hread] at h
    · contradiction
    · exact hatom h
    · cases h
      rfl

end Items

end Seedling.Regex
