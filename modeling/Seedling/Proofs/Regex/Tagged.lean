import Seedling.Proofs.Regex.Operators

/-!
Several expressions in one automaton. Each rule ends in a mark of its own, which bears the name
of the rule and is reached, from the entries of all rules together, by exactly the words of its
expression. Without tags inside the expressions the marks are all that must survive, and every
byte that a row mentions leads somewhere.
-/

namespace Seedling.Regex

open Automaton

/-- An expression without tags. -/
def Untagged : Regex → Prop
  | .literal _ => True
  | .range _ _ => True
  | .concat a b => a.Untagged ∧ b.Untagged
  | .star a => a.Untagged
  | .or a b => a.Untagged ∧ b.Untagged
  | .tag _ _ => False
  | .not a => a.Untagged

/-! ### What building leaves alone -/

/-- The states that were there keep their names, nothing more must survive, and no byte comes to
lead nowhere. -/
structure Plain (nfa nfa' : Nfa) : Prop where
  size_le : nfa.size ≤ nfa'.size
  name : ∀ s < nfa.size, nfa'.name s = nfa.name s
  unmergeable : nfa'.unmergeable = nfa.unmergeable
  filled : nfa.Filled → nfa'.Filled

namespace Plain

variable {nfa nfa' nfa'' : Nfa}

theorem refl (nfa : Nfa) : Plain nfa nfa := ⟨Nat.le_refl _, fun _ _ => rfl, rfl, id⟩

theorem trans (h : Plain nfa nfa') (h' : Plain nfa' nfa'') : Plain nfa nfa'' where
  size_le := Nat.le_trans h.size_le h'.size_le
  name s hs := by rw [h'.name s (Nat.lt_of_lt_of_le hs h.size_le), h.name s hs]
  unmergeable := h'.unmergeable.trans h.unmergeable
  filled hfilled := h'.filled (h.filled hfilled)

theorem addNamed (h : Plain nfa nfa') (name : String) : Plain nfa (nfa'.addNamed name) := by
  refine h.trans ⟨by simp, fun s hs => ?_, rfl, fun hfilled s b targets hget => ?_⟩
  · have hlt : s < nfa'.names.size := hs
    rw [Nfa.name, Nfa.name, Nfa.addNamed, Array.getElem?_push_lt hlt, Array.getElem?_eq_getElem hlt]
  · rw [Nfa.row_addNamed] at hget
    exact hfilled s b targets hget

theorem addState (h : Plain nfa nfa') : Plain nfa nfa'.addState := h.addNamed _

theorem addEdge (h : Plain nfa nfa') (s : Nat) (b : UInt8) (t : Nat) :
    Plain nfa (nfa'.addEdge s b t) := by
  refine h.trans ⟨Nat.le_refl _, fun _ _ => rfl, rfl, fun hfilled x c targets hget => ?_⟩
  rw [Nfa.row_addEdge] at hget
  split at hget
  · rw [SortedMap.get?_upsert] at hget
    split at hget
    · obtain rfl := Option.some.inj hget
      exact ⟨t, SortedSet.mem_insert.2 (.inl rfl)⟩
    · exact hfilled x c targets hget
  · exact hfilled x c targets hget

theorem addEpsilon (h : Plain nfa nfa') (s t : Nat) : Plain nfa (nfa'.addEpsilon s t) :=
  h.trans ⟨Nat.le_refl _, fun _ _ => rfl, rfl, id⟩

theorem addEpsilons (h : Plain nfa nfa') (sources targets : List Nat) :
    Plain nfa (nfa'.addEpsilons sources targets) := by
  have hinner : ∀ (s : Nat) (targets : List Nat) (nfa' : Nfa), Plain nfa nfa' →
      Plain nfa (targets.foldl (fun nfa t => nfa.addEpsilon s t) nfa') := by
    intro s targets
    induction targets with
    | nil => exact fun _ h => h
    | cons t targets ih => exact fun _ h => ih _ (h.addEpsilon s t)
  induction sources generalizing nfa' with
  | nil => exact h
  | cons s sources ih => exact ih (hinner s targets nfa' h)

theorem chain (bs : List UInt8) (h : Plain nfa nfa') (last : Nat) :
    Plain nfa (Regex.chain bs last nfa').2 := by
  induction bs generalizing nfa' last with
  | nil => exact h
  | cons b bs ih => exact ih (h.addState.addEdge last b nfa'.size) nfa'.size

theorem foldl_addEdge (h : Plain nfa nfa') (s t : Nat) (bs : List UInt8) :
    Plain nfa (bs.foldl (fun nfa b => nfa.addEdge s b t) nfa') := by
  induction bs generalizing nfa' with
  | nil => exact h
  | cons b bs ih => exact ih (h.addEdge s b t)

theorem widen (nfa other : Nfa) : Plain nfa (nfa.widen other) := by
  rw [Nfa.widen, ← Array.foldl_toList]
  have hadd : ∀ (names : List String) (nfa' : Nfa), Plain nfa nfa' →
      Plain nfa (names.foldl Nfa.addNamed nfa') := by
    intro names
    induction names with
    | nil => exact fun _ h => h
    | cons name names ih => exact fun _ h => ih _ (h.addNamed name)
  exact hadd _ nfa (.refl nfa)

theorem embed (hwf : nfa.WellFormed) (other : Nfa) : Plain nfa (nfa.embed other) := by
  have hwiden := Plain.widen nfa other
  refine ⟨hwiden.size_le, hwiden.name, hwiden.unmergeable, fun hfilled s b targets hget => ?_⟩
  have hfilled' := hwiden.filled hfilled
  rw [Nfa.row_embed hwf.tabled] at hget
  split at hget
  · rw [SortedMap.get?_mergeWith] at hget
    rcases Option.merge_eq_some_iff.1 hget with ⟨hold, -⟩ | ⟨-, hcopy⟩ | ⟨old, _, hold, -, rfl⟩
    · exact hfilled' s b targets hold
    · exact Nfa.exists_mem_shiftRow hcopy
    · obtain ⟨t, ht⟩ := hfilled' s b old hold
      exact ⟨t, SortedSet.mem_union.2 (.inl ht)⟩
  · exact hfilled' s b targets hget

end Plain

theorem plain_fragment {r : Regex} (hr : r.Untagged) {nfa : Nfa} (h : nfa.WellFormed) :
    Plain nfa (r.fragment nfa).2 := by
  induction r generalizing nfa with
  | literal bs => exact (Plain.refl nfa).addState.chain bs nfa.size
  | range lo hi => exact (Plain.refl nfa).addState.addState.foldl_addEdge _ _ _
  | concat a b iha ihb =>
      have hx := iha hr.1 h
      have hy := ihb hr.2 (builds_fragment a h).grows.wellFormed
      exact ((hx.trans hy).addState.addEpsilons _ _).addEpsilons _ _
  | star a ih =>
      have hx := (ih hr h).addState.addState
      exact (((hx.addEpsilons _ _).addEpsilons _ _).addEpsilon _ _).addEpsilon _ _
  | or a b iha ihb =>
      have hx := iha hr.1 h
      have hy := ihb hr.2 (builds_fragment a h).grows.wellFormed
      exact ((hx.trans hy).addState.addState.addEpsilons _ _).addEpsilons _ _
  | tag a name => exact hr.elim
  | not a => exact .embed h _

/-! ### Marks -/

theorem Grows.path_of_lt {nfa nfa' : Nfa} (h : Grows nfa nfa') {s t : Nat} {w : List UInt8}
    (hs : s < nfa.size) (hp : nfa'.Path s w t) : nfa.Path s w t ∧ t < nfa.size := by
  induction hp with
  | nil s => exact ⟨.nil s, hs⟩
  | step hedge _ ih =>
      obtain ⟨hold, hlt⟩ := h.edge_lt hs hedge
      obtain ⟨hp, ht⟩ := ih hlt
      exact ⟨.step hold hp, ht⟩

theorem Grows.le_of_path {nfa nfa' : Nfa} (h : Grows nfa nfa') {s t : Nat} {w : List UInt8}
    (hs : nfa.size ≤ s) (hp : nfa'.Path s w t) : nfa.size ≤ t := by
  induction hp with
  | nil s => exact hs
  | step hedge _ ih => exact ih (h.new hs hedge)

/-- The mark of a rule is a state with the name of the rule, and the words that lead to it are
those of the rule. -/
structure Marks (nfa : Nfa) (starts : List Nat) (rule : Regex × String) (mark : Nat) : Prop where
  lt : mark < nfa.size
  name : nfa.name mark = rule.2
  words : ∀ w, w ∈ rule.1.language ↔ ∃ s ∈ starts, nfa.Path s w mark

/-- Several rules in one automaton: a mark for each of them, in order, and nothing else that must
survive. -/
structure Tagged (rules : List (Regex × String)) (x : Fragment) (nfa : Nfa) : Prop where
  grows : Grows .empty nfa
  filled : nfa.Filled
  starts : ∀ s ∈ x.starts, s < nfa.size
  unmergeable : ∀ m, m ∈ nfa.unmergeable ↔ m ∈ x.finals
  marks : List.Forall₂ (Marks nfa x.starts) rules x.finals

def addRule (all : Fragment × Nfa) (rule : Regex × String) : Fragment × Nfa :=
  let (x, nfa) := rule.1.fragment all.2
  let (mark, nfa) := addTag x.finals rule.2 nfa
  (⟨all.1.starts ++ x.starts, all.1.finals ++ [mark]⟩, nfa)

theorem compileTagged_eq (rules : List (Regex × String)) :
    compileTagged rules =
      close (rules.foldl addRule (⟨[], []⟩, .empty)).1
        (rules.foldl addRule (⟨[], []⟩, .empty)).2 := rfl

theorem tagged_nil : Tagged [] ⟨[], []⟩ .empty where
  grows := .refl Nfa.wellFormed_empty
  filled := by
    intro s b targets hget
    contradiction
  starts := by simp
  unmergeable m := iff_of_false (SortedSet.not_mem_empty m) List.not_mem_nil
  marks := .nil

/-- More states leave the mark of a rule as it is: entries among them do not lead back to it. -/
theorem Marks.mono {nfa nfa' : Nfa} (h : Grows nfa nfa')
    (hname : ∀ s < nfa.size, nfa'.name s = nfa.name s)
    {starts added : List Nat} (hstarts : ∀ s ∈ starts, s < nfa.size)
    (hadded : ∀ s ∈ added, nfa.size ≤ s) {mark : Nat} {rule : Regex × String}
    (hm : Marks nfa starts rule mark) : Marks nfa' (starts ++ added) rule mark := by
  have hlt := hm.lt
  refine ⟨Nat.lt_of_lt_of_le hlt h.size_le, (hname mark hlt).trans hm.name, fun w => ?_⟩
  rw [hm.words]
  constructor
  · rintro ⟨s, hs, hp⟩
    exact ⟨s, List.mem_append_left _ hs, h.path hp⟩
  · rintro ⟨s, hs, hp⟩
    rcases List.mem_append.1 hs with hs | hs
    · exact ⟨s, hs, (h.path_of_lt (hstarts s hs) hp).1⟩
    · have hle := h.le_of_path (hadded s hs) hp
      omega

/-- The tables after a tag: its state has the name it was given and joins what must survive. -/
theorem addTag_tables (finals : List Nat) (name : String) (nfa : Nfa) :
    (∀ s < nfa.size, (addTag finals name nfa).2.name s = nfa.name s) ∧
      (addTag finals name nfa).2.name nfa.size = name ∧
      (addTag finals name nfa).2.unmergeable = nfa.unmergeable.insert nfa.size ∧
      (nfa.Filled → (addTag finals name nfa).2.Filled) := by
  have hnamed := (Plain.refl nfa).addNamed name
  have hjoined := (Plain.refl { nfa.addNamed name with
    unmergeable := nfa.unmergeable.insert nfa.size }).addEpsilons finals [nfa.size]
  refine ⟨fun s hs => ?_, ?_, hjoined.unmergeable,
    fun hfilled => hjoined.filled (hnamed.filled hfilled)⟩
  · exact (hjoined.name s (Nat.lt_of_lt_of_le hs hnamed.size_le)).trans (hnamed.name s hs)
  · refine (hjoined.name nfa.size ?_).trans ?_
    · exact Nat.lt_of_lt_of_eq (Nat.lt_succ_self _) (Nfa.size_addNamed nfa name).symm
    · simp [Nfa.name, Nfa.addNamed, Nfa.size]

theorem Tagged.addRule {rules : List (Regex × String)} {x : Fragment} {nfa : Nfa}
    (h : Tagged rules x nfa) {rule : Regex × String} (hrule : rule.1.Untagged) :
    Tagged (rules ++ [rule]) (addRule (x, nfa) rule).1 (addRule (x, nfa) rule).2 := by
  have hwf := h.grows.wellFormed
  have hplain := plain_fragment hrule hwf
  have hbuilds := builds_tag (builds_fragment rule.1 hwf) rule.2
  obtain ⟨hold, hown, hmarks, hfilled⟩ :=
    addTag_tables (rule.1.fragment nfa).1.finals rule.2 (rule.1.fragment nfa).2
  show Tagged (rules ++ [rule])
    ⟨x.starts ++ (rule.1.fragment nfa).1.starts, x.finals ++ [(rule.1.fragment nfa).2.size]⟩
    (addTag (rule.1.fragment nfa).1.finals rule.2 (rule.1.fragment nfa).2).2
  generalize (addTag (rule.1.fragment nfa).1.finals rule.2 (rule.1.fragment nfa).2).2 = nfa'
    at hbuilds hold hown hmarks hfilled ⊢
  generalize (rule.1.fragment nfa).2 = nfa₁ at hplain hbuilds hold hown hmarks hfilled ⊢
  generalize (rule.1.fragment nfa).1 = y at hbuilds ⊢
  have hname : ∀ s < nfa.size, nfa'.name s = nfa.name s := fun s hs =>
    (hold s (Nat.lt_of_lt_of_le hs hplain.size_le)).trans (hplain.name s hs)
  have hlt := (hbuilds.finals nfa₁.size (List.mem_singleton_self _)).2
  refine ⟨h.grows.trans hbuilds.grows, hfilled (hplain.filled h.filled), ?_, ?_, ?_⟩
  · intro s hs
    rcases List.mem_append.1 hs with hs | hs
    · exact Nat.lt_of_lt_of_le (h.starts s hs) hbuilds.grows.size_le
    · exact (hbuilds.starts s hs).2
  · intro m
    rw [hmarks, hplain.unmergeable, SortedSet.mem_insert, h.unmergeable, List.mem_append,
      List.mem_singleton, or_comm]
  · refine List.rel_append (h.marks.imp fun _ _ hm => ?_) (.cons ⟨hlt, hown, fun w => ?_⟩ .nil)
    · exact hm.mono hbuilds.grows hname h.starts fun s hs => (hbuilds.starts s hs).1
    · rw [hbuilds.accepts]
      simp only [List.mem_singleton, exists_eq_left]
      constructor
      · rintro ⟨s, hs, hp⟩
        exact ⟨s, List.mem_append_right _ hs, hp⟩
      · rintro ⟨s, hs, hp⟩
        rcases List.mem_append.1 hs with hs | hs
        · -- The entries of the other rules do not lead to the new states.
          have hin := (hbuilds.grows.path_of_lt (h.starts s hs) hp).2
          have hout := hplain.size_le
          omega
        · exact ⟨s, hs, hp⟩

theorem Tagged.foldl_addRule {rest done : List (Regex × String)}
    (hrest : ∀ rule ∈ rest, rule.1.Untagged)
    {all : Fragment × Nfa} (h : Tagged done all.1 all.2) :
    Tagged (done ++ rest) (rest.foldl Regex.addRule all).1 (rest.foldl Regex.addRule all).2 := by
  induction rest generalizing done all with
  | nil =>
      rw [List.append_nil]
      exact h
  | cons rule rest ih =>
      have hnext := h.addRule (hrest rule List.mem_cons_self)
      rw [List.append_cons]
      exact ih (fun r hr => hrest r (List.mem_cons_of_mem rule hr)) hnext

/-! ### The automaton of all rules -/

theorem exists_of_forall₂ {α β : Type} {R : α → β → Prop} {l : List α} {m : List β}
    (h : List.Forall₂ R l m) : (∀ a ∈ l, ∃ b ∈ m, R a b) ∧ ∀ b ∈ m, ∃ a ∈ l, R a b := by
  induction h with
  | nil => exact ⟨by simp, by simp⟩
  | @cons a b l m hab _ ih =>
      constructor
      · intro c hc
        rcases List.mem_cons.1 hc with rfl | hc
        · exact ⟨b, List.mem_cons_self, hab⟩
        · obtain ⟨d, hd, hcd⟩ := ih.1 c hc
          exact ⟨d, List.mem_cons_of_mem b hd, hcd⟩
      · intro d hd
        rcases List.mem_cons.1 hd with rfl | hd
        · exact ⟨a, List.mem_cons_self, hab⟩
        · obtain ⟨c, hc, hcd⟩ := ih.2 d hd
          exact ⟨c, List.mem_cons_of_mem a hc, hcd⟩

theorem exists_tagged {rules : List (Regex × String)} (h : ∀ rule ∈ rules, rule.1.Untagged) :
    ∃ x nfa, Tagged rules x nfa ∧ compileTagged rules = close x nfa := by
  let first : Fragment × Nfa := (⟨[], []⟩, .empty)
  have hfirst : Tagged [] first.1 first.2 := tagged_nil
  exact ⟨_, _, Tagged.foldl_addRule h hfirst, compileTagged_eq rules⟩

section Compiled

variable {rules : List (Regex × String)} {x : Fragment} {nfa : Nfa} (h : Tagged rules x nfa)
include h

theorem Tagged.close_start_lt : ∀ s ∈ (close x nfa).start, s < (close x nfa).size := by
  intro s hs
  rw [close, SortedSet.mem_insertAll, h.grows.start_eq] at hs
  exact h.starts s (hs.resolve_right (SortedSet.not_mem_empty s))

theorem Tagged.mem_close_final {m : Nat} :
    m ∈ (close x nfa).final ↔ m ∈ (close x nfa).unmergeable := by
  rw [close, SortedSet.mem_insertAll, h.grows.final_eq, h.unmergeable]
  exact or_iff_left (SortedSet.not_mem_empty m)

theorem Tagged.mem_close_run {m : Nat} {w : List UInt8} :
    m ∈ (close x nfa).run (close x nfa).start w ↔ ∃ s ∈ x.starts, nfa.Path s w m := by
  have hstart : ∀ s, s ∈ (close x nfa).start ↔ s ∈ x.starts := by
    intro s
    rw [close, SortedSet.mem_insertAll, h.grows.start_eq]
    exact or_iff_left (SortedSet.not_mem_empty s)
  rw [Nfa.mem_run (close_wellFormed h.grows.wellFormed)]
  simp only [hstart, path_close]

/-- A word of a rule leads to the mark of the rule. -/
theorem Tagged.exists_mark {rule : Regex × String} (hrule : rule ∈ rules) {w : List UInt8}
    (hw : w ∈ rule.1.language) :
    ∃ m ∈ (close x nfa).run (close x nfa).start w,
      m ∈ (close x nfa).unmergeable ∧ (close x nfa).name m = rule.2 := by
  obtain ⟨m, hm, hmarks⟩ := (exists_of_forall₂ h.marks).1 rule hrule
  exact ⟨m, h.mem_close_run.2 ((hmarks.words w).1 hw), (h.unmergeable m).2 hm, hmarks.name⟩

/-- A mark that a word leads to is that of a rule with the word. -/
theorem Tagged.exists_rule {m : Nat} {w : List UInt8}
    (hrun : m ∈ (close x nfa).run (close x nfa).start w) (hm : m ∈ (close x nfa).unmergeable) :
    ∃ rule ∈ rules, w ∈ rule.1.language ∧ (close x nfa).name m = rule.2 := by
  obtain ⟨rule, hrule, hmarks⟩ := (exists_of_forall₂ h.marks).2 m ((h.unmergeable m).1 hm)
  exact ⟨rule, hrule, (hmarks.words w).2 (h.mem_close_run.1 hrun), hmarks.name⟩

end Compiled

end Seedling.Regex
