import Mathlib.Data.Finset.Powerset
import Seedling.Automaton.Subset
import Seedling.Proofs.Automaton.Dfa
import Seedling.Proofs.Automaton.Path

/-!
The subset construction is exact. Each set is numbered once and there are at most as many as
subsets of states, so the rounds suffice and every set gets its row; a row leads, under a byte,
to the number of the set that a run of the nondeterministic automaton comes to. The run of the
deterministic automaton on a word is therefore the number of the set of states after the word,
and it is missing only where no state is left.
-/

namespace Seedling.Automaton

namespace Nfa

/-- The closed sets that a closed set leads to along a word. -/
def follow (nfa : Nfa) (states : StateSet) (w : List UInt8) : StateSet :=
  w.foldl (fun states b => nfa.closure (nfa.step states b)) states

theorem run_eq_follow (nfa : Nfa) (states : StateSet) (w : List UInt8) :
    nfa.run states w = nfa.follow (nfa.closure states) w := rfl

variable {nfa : Nfa}

theorem follow_empty (nfa : Nfa) (w : List UInt8) : nfa.follow .empty w = .empty :=
  foldl_step_empty nfa w

/-- Every byte that a row mentions leads somewhere. -/
def Filled (nfa : Nfa) : Prop :=
  ∀ s b targets, (nfa.row s).get? b = some targets → ∃ t, t ∈ targets

theorem path_lt (hwf : nfa.WellFormed) {s t : Nat} {w : List UInt8} (hs : s < nfa.size)
    (h : nfa.Path s w t) : t < nfa.size := by
  induction h with
  | nil _ => exact hs
  | step hedge _ ih => exact ih (hwf.target_lt hedge)

theorem closure_lt (hwf : nfa.WellFormed) {states : StateSet}
    (h : ∀ s ∈ states, s < nfa.size) : ∀ t ∈ nfa.closure states, t < nfa.size := by
  intro t ht
  obtain ⟨s, hs, hpath⟩ := (mem_closure hwf).1 ht
  exact path_lt hwf (h s hs) hpath

end Nfa

namespace Numbering

/-- The sets that were numbered keep their numbers. -/
def Extends (n n' : Numbering) : Prop :=
  ∀ (i : Nat) (states : StateSet), n.sets[i]? = some states → n'.sets[i]? = some states

theorem Extends.refl (n : Numbering) : n.Extends n := fun _ _ h => h

theorem Extends.trans {n n' n'' : Numbering} (h : n.Extends n') (h' : n'.Extends n'') :
    n.Extends n'' := fun i states hi => h' i states (h i states hi)

theorem Extends.size_le {n n' : Numbering} (h : n.Extends n') : n.sets.size ≤ n'.sets.size := by
  by_contra hlt
  obtain ⟨states, hs⟩ : ∃ states, n.sets[n'.sets.size]? = some states :=
    ⟨_, Array.getElem?_eq_getElem (by omega)⟩
  have hin := h _ _ hs
  rw [Array.getElem?_eq_none (Nat.le_refl _)] at hin
  contradiction

theorem eq_of_getElem? (n : Numbering) {i j : Nat} {states : StateSet}
    (hi : n.sets[i]? = some states) (hj : n.sets[j]? = some states) : i = j := by
  have hi' := (n.agrees states i).2 hi
  have hj' := (n.agrees states j).2 hj
  rw [hi'] at hj'
  exact Option.some.inj hj'

theorem intern_eq (n : Numbering) (states : StateSet) :
    (n.sets[(n.intern states).2]? = some states ∧ (n.intern states).1 = n) ∨
      ((n.intern states).1.sets = n.sets.push states ∧ (n.intern states).2 = n.sets.size) := by
  unfold intern
  split
  · rename_i i h
    exact .inl ⟨(n.agrees states i).1 h, rfl⟩
  · exact .inr ⟨rfl, rfl⟩

theorem sets_intern_empty (states : StateSet) : (empty.intern states).1.sets = #[states] := by
  rcases empty.intern_eq states with ⟨h, _⟩ | ⟨h, _⟩
  · simp [empty] at h
  · exact h

theorem intern_extends (n : Numbering) (states : StateSet) : n.Extends (n.intern states).1 := by
  intro i t hi
  rcases n.intern_eq states with ⟨_, heq⟩ | ⟨hsets, _⟩
  · rw [heq]
    exact hi
  · have hlt : i < n.sets.size := (Array.getElem?_eq_some_iff.1 hi).1
    rw [hsets, Array.getElem?_push_lt hlt, ← hi, Array.getElem?_eq_getElem hlt]

theorem intern_getElem? (n : Numbering) (states : StateSet) :
    (n.intern states).1.sets[(n.intern states).2]? = some states := by
  rcases n.intern_eq states with ⟨h, heq⟩ | ⟨hsets, hnum⟩
  · rw [heq]
    exact h
  · rw [hsets, hnum, Array.getElem?_push_size]

theorem intern_source {n : Numbering} {states t : StateSet} {i : Nat}
    (h : (n.intern states).1.sets[i]? = some t) : n.sets[i]? = some t ∨ t = states := by
  rcases n.intern_eq states with ⟨_, heq⟩ | ⟨hsets, _⟩
  · rw [heq] at h
    exact .inl h
  · rw [hsets, Array.getElem?_push] at h
    split at h
    · exact .inr (Option.some.inj h).symm
    · exact .inl h

theorem size_le_two_pow (n : Numbering) {count : Nat}
    (h : ∀ (i : Nat) (states : StateSet), n.sets[i]? = some states → ∀ s ∈ states, s < count) :
    n.sets.size ≤ 2 ^ count := by
  let members (i : Nat) : Finset Nat := ((n.sets[i]?.getD .empty).toList).toFinset
  have hget : ∀ i < n.sets.size, ∃ states, n.sets[i]? = some states := fun i hi =>
    ⟨_, Array.getElem?_eq_getElem hi⟩
  have hmaps : ∀ i ∈ Finset.range n.sets.size, members i ∈ (Finset.range count).powerset := by
    intro i hi
    obtain ⟨states, hs⟩ := hget i (Finset.mem_range.1 hi)
    refine Finset.mem_powerset.2 fun s hmem => Finset.mem_range.2 (h i states hs s ?_)
    simpa [members, hs] using hmem
  have hinj : Set.InjOn members (Finset.range n.sets.size) := by
    intro i hi j hj hij
    obtain ⟨states, hs⟩ := hget i (Finset.mem_range.1 hi)
    obtain ⟨states', hs'⟩ := hget j (Finset.mem_range.1 hj)
    have heq : states = states' := by
      apply SortedSet.ext_mem
      intro s
      have hmem := Finset.ext_iff.1 hij s
      simpa [members, hs, hs'] using hmem
    exact n.eq_of_getElem? (heq ▸ hs) hs'
  calc n.sets.size = (Finset.range n.sets.size).card := (Finset.card_range _).symm
    _ ≤ ((Finset.range count).powerset).card := Finset.card_le_card_of_injOn members hmaps hinj
    _ = 2 ^ count := by rw [Finset.card_powerset, Finset.card_range]

end Numbering

namespace Subsets

variable {nfa : Nfa}

/-- The moves of a set under a byte are the targets of its members; a byte without moves has
none. -/
theorem get?_moves (nfa : Nfa) (states : StateSet) (b : UInt8) :
    (∀ targets, (moves nfa states).get? b = some targets → targets = nfa.step states b) ∧
      ((moves nfa states).get? b = none → nfa.step states b = .empty) := by
  obtain ⟨l, hl⟩ := states
  simp only [moves, Nfa.step]
  clear hl
  induction l with
  | nil => simp
  | cons s l ih =>
      simp only [List.foldr_cons, SortedMap.get?_mergeWith]
      cases hrest : (l.foldr (fun s moves => moves.mergeWith SortedSet.union (nfa.row s))
        SortedMap.empty).get? b with
      | none =>
          rw [ih.2 hrest]
          cases (nfa.row s).get? b with
          | none => simp [SortedSet.union, SortedSet.insertAll, SortedSet.empty]
          | some t =>
              simp only [Option.merge_none_left, Option.some.injEq, reduceCtorEq, false_implies,
                and_true, Option.getD_some]
              rintro _ rfl
              exact SortedSet.ext_mem fun a => by simp
      | some t =>
          rw [← ih.1 t hrest]
          cases (nfa.row s).get? b with
          | none =>
              simp only [Option.merge_none_right, Option.some.injEq, reduceCtorEq, false_implies,
                and_true, Option.getD_none]
              rintro _ rfl
              exact SortedSet.ext_mem fun a => by simp
          | some t' => simp [Option.merge]

theorem exists_mem_of_get?_moves (h : nfa.Filled) {states : StateSet} {b : UInt8}
    {targets : StateSet} (hget : (moves nfa states).get? b = some targets) : ∃ t, t ∈ targets := by
  obtain ⟨l, hl⟩ := states
  simp only [moves] at hget
  clear hl
  induction l generalizing targets with
  | nil => simp at hget
  | cons s l ih =>
      rw [List.foldr_cons, SortedMap.get?_mergeWith] at hget
      rcases Option.merge_eq_some_iff.1 hget with ⟨hrest, -⟩ | ⟨-, hrow⟩ | ⟨t, -, hrest, -, rfl⟩
      · exact ih hrest
      · exact h s b targets hrow
      · obtain ⟨u, hu⟩ := ih hrest
        exact ⟨u, SortedSet.mem_union.2 (.inl hu)⟩

/-- Numbering moves keeps their bytes in place and puts for each set its number. -/
theorem numberMoves_spec (moves : List (UInt8 × StateSet)) (n : Numbering) :
    n.Extends (numberMoves moves n).1 ∧
      List.Forall₂ (fun p q => p.1 = q.1 ∧ (numberMoves moves n).1.sets[q.2]? = some p.2) moves
        (numberMoves moves n).2 := by
  induction moves generalizing n with
  | nil => exact ⟨.refl n, .nil⟩
  | cons p rest ih =>
      obtain ⟨b, states⟩ := p
      obtain ⟨hext, hrow⟩ := ih (n.intern states).1
      exact ⟨(n.intern_extends states).trans hext,
        .cons ⟨rfl, hext _ _ (n.intern_getElem? states)⟩ hrow⟩

/-- No set is numbered but those that the moves lead to. -/
theorem numberMoves_source (moves : List (UInt8 × StateSet)) (n : Numbering) {i : Nat}
    {states : StateSet} (h : (numberMoves moves n).1.sets[i]? = some states) :
    n.sets[i]? = some states ∨ ∃ p ∈ moves, states = p.2 := by
  induction moves generalizing n with
  | nil => exact .inl h
  | cons p rest ih =>
      obtain ⟨b, t⟩ := p
      rcases ih (n.intern t).1 h with h | ⟨p, hp, heq⟩
      · rcases Numbering.intern_source h with h | rfl
        · exact .inl h
        · exact .inr ⟨(b, states), by simp, rfl⟩
      · exact .inr ⟨p, by simp [hp], heq⟩

theorem lookup_of_forall₂ {sets : Array StateSet} {moves : List (UInt8 × StateSet)}
    {row : List (UInt8 × Nat)}
    (h : List.Forall₂ (fun p q => p.1 = q.1 ∧ sets[q.2]? = some p.2) moves row) (b : UInt8) :
    (∀ j, SortedMap.lookup row b = some j →
        ∃ states, SortedMap.lookup moves b = some states ∧ sets[j]? = some states) ∧
      (SortedMap.lookup row b = none ↔ SortedMap.lookup moves b = none) := by
  induction h with
  | nil => simp
  | @cons p q moves row hpq _ ih =>
      rw [SortedMap.lookup_cons, SortedMap.lookup_cons, hpq.1]
      split
      · exact ⟨fun j hj => ⟨p.2, rfl, Option.some.inj hj ▸ hpq.2⟩, by simp⟩
      · exact ih

theorem pairwise_of_forall₂ {sets : Array StateSet} {moves : List (UInt8 × StateSet)}
    {row : List (UInt8 × Nat)}
    (h : List.Forall₂ (fun p q => p.1 = q.1 ∧ sets[q.2]? = some p.2) moves row)
    (hmoves : moves.Pairwise fun p q => p.1 < q.1) : row.Pairwise fun p q => p.1 < q.1 := by
  have hkeys : moves.map Prod.fst = row.map Prod.fst := by
    induction h with
    | nil => rfl
    | cons hpq _ ih =>
        rw [List.map_cons, List.map_cons, hpq.1, ih (List.pairwise_cons.1 hmoves).2]
  have hsorted : (row.map Prod.fst).Pairwise (· < ·) := by
    rw [← hkeys]
    exact List.pairwise_map.2 hmoves
  exact List.pairwise_map.1 hsorted

/-- A row leads to the sets that the run leads to, and is silent where there are no moves. -/
def RowOf (nfa : Nfa) (sets : Array StateSet) (states : StateSet) (row : SortedMap UInt8 Nat) :
    Prop :=
  ∀ b, (∀ j : Nat, row.get? b = some j → sets[j]? = some (nfa.closure (nfa.step states b))) ∧
    (row.get? b = none ↔ (moves nfa states).get? b = none)

/-- What holds of the sets and rows at any time: there is no row without a set, the first set is
that of the start, the rows lead where the run leads, and the sets have only states. -/
structure Sound (nfa : Nfa) (subsets : Subsets) : Prop where
  rows_le : subsets.rows.size ≤ subsets.numbering.sets.size
  first : subsets.numbering.sets[0]? = some (nfa.closure nfa.start)
  row : ∀ (i : Nat) (states : StateSet) (row : SortedMap UInt8 Nat),
    subsets.numbering.sets[i]? = some states → subsets.rows[i]? = some row →
      RowOf nfa subsets.numbering.sets states row
  inside : ∀ (i : Nat) (states : StateSet),
    subsets.numbering.sets[i]? = some states → ∀ s ∈ states, s < nfa.size

theorem RowOf.mono {n n' : Numbering} (h : n.Extends n') {states : StateSet}
    {row : SortedMap UInt8 Nat} (hrow : RowOf nfa n.sets states row) :
    RowOf nfa n'.sets states row :=
  fun b => ⟨fun j hj => h j _ ((hrow b).1 j hj), (hrow b).2⟩

/-- The moves of a set, closed, in the order of their bytes. -/
def closedMoves (nfa : Nfa) (states : StateSet) : List (UInt8 × StateSet) :=
  (moves nfa states).toList.map fun p => (p.1, nfa.closure p.2)

theorem advance_eq (states : StateSet) (subsets : Subsets) :
    advance nfa states subsets =
      ⟨(numberMoves (closedMoves nfa states) subsets.numbering).1,
        subsets.rows.push
          (.ofList (numberMoves (closedMoves nfa states) subsets.numbering).2)⟩ := by
  simp only [advance, closeMoves_eq_map]
  rfl

theorem lookup_closedMoves (states : StateSet) (b : UInt8) :
    SortedMap.lookup (closedMoves nfa states) b =
      ((moves nfa states).get? b).map nfa.closure :=
  SortedMap.get?_mapValues nfa.closure (moves nfa states) b

theorem pairwise_closedMoves (states : StateSet) :
    (closedMoves nfa states).Pairwise fun p q => p.1 < q.1 :=
  List.pairwise_map.2 (moves nfa states).sorted

theorem rowOf_advance (states : StateSet) (n : Numbering) :
    RowOf nfa (numberMoves (closedMoves nfa states) n).1.sets states
      (.ofList (numberMoves (closedMoves nfa states) n).2) := by
  obtain ⟨_, hrow⟩ := numberMoves_spec (closedMoves nfa states) n
  have hsorted := pairwise_of_forall₂ hrow (pairwise_closedMoves states)
  intro b
  obtain ⟨hsome, hnone⟩ := lookup_of_forall₂ hrow b
  rw [SortedMap.get?_ofList hsorted]
  constructor
  · intro j hj
    obtain ⟨closed, hlook, hset⟩ := hsome j hj
    rw [lookup_closedMoves] at hlook
    obtain ⟨targets, htargets, rfl⟩ := Option.map_eq_some_iff.1 hlook
    rw [hset, (get?_moves nfa states b).1 targets htargets]
  · rw [hnone, lookup_closedMoves, Option.map_eq_none_iff]

theorem step_lt (hwf : nfa.WellFormed) (states : StateSet) (b : UInt8) :
    ∀ t ∈ nfa.step states b, t < nfa.size := by
  intro t ht
  obtain ⟨s, _, hedge⟩ := Nfa.mem_step.1 ht
  exact hwf.target_lt hedge

theorem Sound.advance (hwf : nfa.WellFormed) {subsets : Subsets} (h : Sound nfa subsets)
    {states : StateSet} (hnext : subsets.numbering.sets[subsets.rows.size]? = some states) :
    Sound nfa (advance nfa states subsets) := by
  obtain ⟨hext, _⟩ := numberMoves_spec (closedMoves nfa states) subsets.numbering
  have hlt : subsets.rows.size < subsets.numbering.sets.size :=
    (Array.getElem?_eq_some_iff.1 hnext).1
  rw [advance_eq]
  refine ⟨?_, hext _ _ h.first, ?_, ?_⟩
  · have hsize := hext.size_le
    simp only [Array.size_push]
    omega
  · -- The new row is that of the set it was made for; the old ones keep their sets.
    intro i t row hi hrow
    rw [Array.getElem?_push] at hrow
    split at hrow
    · rename_i heq
      obtain rfl := heq
      have hsame : t = states := by
        have hold := hext _ _ hnext
        rw [hi] at hold
        exact Option.some.inj hold
      obtain rfl := Option.some.inj hrow
      rw [hsame]
      exact rowOf_advance states subsets.numbering
    · have hilt : i < subsets.rows.size := (Array.getElem?_eq_some_iff.1 hrow).1
      obtain ⟨old, hold⟩ : ∃ old, subsets.numbering.sets[i]? = some old :=
        ⟨_, Array.getElem?_eq_getElem (by omega)⟩
      have hsame : t = old := by
        have hnew := hext _ _ hold
        rw [hi] at hnew
        exact Option.some.inj hnew
      rw [hsame]
      exact (h.row i old row hold hrow).mono hext
  · intro i t hi
    rcases numberMoves_source _ _ hi with hold | ⟨p, hp, rfl⟩
    · exact h.inside i t hold
    · obtain ⟨⟨b, targets⟩, hmem, rfl⟩ := List.mem_map.1 hp
      have hget := SortedMap.get?_eq_some_iff.2 hmem
      rw [(get?_moves nfa states b).1 targets hget]
      exact Nfa.closure_lt hwf (step_lt hwf states b)

/-- Enough rounds give every set its row. -/
theorem saturate_spec (hwf : nfa.WellFormed) (rounds : Nat) {subsets : Subsets}
    (h : Sound nfa subsets) (hrounds : 2 ^ nfa.size < rounds + subsets.rows.size) :
    Sound nfa (saturate nfa rounds subsets) ∧
      (saturate nfa rounds subsets).rows.size =
        (saturate nfa rounds subsets).numbering.sets.size := by
  have hcount := subsets.numbering.size_le_two_pow h.inside
  have hle := h.rows_le
  induction rounds generalizing subsets with
  | zero => omega
  | succ rounds ih =>
      rw [saturate]
      split
      · rename_i hnone
        have hge := Array.getElem?_eq_none_iff.1 hnone
        exact ⟨h, by omega⟩
      · rename_i states hsome
        have hnext := h.advance hwf hsome
        have hrows : (Subsets.advance nfa states subsets).rows.size = subsets.rows.size + 1 := by
          rw [advance_eq]
          simp
        exact ih hnext (by omega) (Numbering.size_le_two_pow _ hnext.inside) hnext.rows_le

/-- The subsets of an automaton: in order, and each with its row. -/
theorem ofNfa_spec (hwf : nfa.WellFormed) (hstart : ∀ s ∈ nfa.start, s < nfa.size) :
    Sound nfa (ofNfa nfa) ∧ (ofNfa nfa).rows.size = (ofNfa nfa).numbering.sets.size := by
  apply saturate_spec hwf
  · have hsets := Numbering.sets_intern_empty (nfa.closure nfa.start)
    refine ⟨by simp, by simp [hsets], by simp, ?_⟩
    intro i states hi
    rw [hsets] at hi
    obtain rfl : states = nfa.closure nfa.start := by
      cases i with
      | zero => simpa using hi.symm
      | succ i => simp at hi
    exact Nfa.closure_lt hwf hstart
  · rw [hwf.epsilons_size]
    simp

end Subsets

section Determinize

variable {nfa : Nfa} (precedence : Option (List String))

theorem mem_meeting {sets : Array StateSet} {marked : StateSet} {i : Nat} :
    i ∈ meeting sets marked ↔ ∃ states, sets[i]? = some states ∧ ∃ s ∈ states, s ∈ marked := by
  simp only [meeting, SortedSet.mem_ofList, List.mem_filter, List.mem_range, List.any_eq_true,
    SortedSet.mem_toList, SortedSet.contains, decide_eq_true_eq]
  constructor
  · rintro ⟨hi, s, hs, hmarked⟩
    rw [Array.getElem?_eq_getElem hi] at hs
    exact ⟨_, Array.getElem?_eq_getElem hi, s, hs, hmarked⟩
  · rintro ⟨states, hi, s, hs, hmarked⟩
    refine ⟨(Array.getElem?_eq_some_iff.1 hi).1, s, ?_, hmarked⟩
    rw [hi]
    exact hs

/-- The sets of states behind the states of the deterministic automaton. -/
def subsetsOf (nfa : Nfa) : Array StateSet := (Subsets.ofNfa nfa).numbering.sets

@[simp] theorem determinize_size (nfa : Nfa) :
    (determinize nfa precedence).size = (subsetsOf nfa).size := by
  simp [determinize, Dfa.size, subsetsOf]

theorem rowOf_determinize (hwf : nfa.WellFormed) (hstart : ∀ s ∈ nfa.start, s < nfa.size)
    {i : Nat} {states : StateSet} (hi : (subsetsOf nfa)[i]? = some states) :
    Subsets.RowOf nfa (subsetsOf nfa) states ((determinize nfa precedence).row i) := by
  obtain ⟨hsound, hsize⟩ := Subsets.ofNfa_spec hwf hstart
  have hlt : i < (Subsets.ofNfa nfa).numbering.sets.size := (Array.getElem?_eq_some_iff.1 hi).1
  have hrow : (Subsets.ofNfa nfa).rows[i]? = some ((determinize nfa precedence).row i) := by
    simp only [Dfa.row, determinize]
    rw [Array.getElem?_eq_getElem (by omega)]
    rfl
  exact hsound.row i states _ hi hrow

/-- One transition of the deterministic automaton is one step of the run. -/
theorem determinize_next? (hwf : nfa.WellFormed) (hstart : ∀ s ∈ nfa.start, s < nfa.size)
    {i : Nat} {states : StateSet} (hi : (subsetsOf nfa)[i]? = some states) (b : UInt8) :
    (∀ j, (determinize nfa precedence).next? i b = some j →
        (subsetsOf nfa)[j]? = some (nfa.closure (nfa.step states b))) ∧
      ((determinize nfa precedence).next? i b = none → nfa.step states b = .empty) := by
  obtain ⟨hsome, hnone⟩ := rowOf_determinize precedence hwf hstart hi b
  exact ⟨hsome, fun h => (Subsets.get?_moves nfa states b).2 (hnone.1 h)⟩

theorem determinize_valid (hwf : nfa.WellFormed) (hstart : ∀ s ∈ nfa.start, s < nfa.size) :
    (determinize nfa precedence).Valid := by
  obtain ⟨hsound, hsize⟩ := Subsets.ofNfa_spec hwf hstart
  have hrows : (determinize nfa precedence).rows.size = (determinize nfa precedence).size := by
    rw [determinize_size]
    exact hsize
  refine ⟨hrows, ?_, ?_, ?_, ?_⟩
  · rw [determinize_size]
    exact (Array.getElem?_eq_some_iff.1 hsound.first).1
  · intro i b j hj
    have hi : i < (subsetsOf nfa).size := by
      rw [← determinize_size precedence, ← hrows]
      exact Dfa.lt_of_next? hj
    have hget := Array.getElem?_eq_getElem hi
    rw [determinize_size]
    exact (Array.getElem?_eq_some_iff.1
      ((determinize_next? precedence hwf hstart hget b).1 j hj)).1
  · intro s hs
    obtain ⟨_, hget, _⟩ := mem_meeting.1 hs
    rw [determinize_size]
    exact (Array.getElem?_eq_some_iff.1 hget).1
  · intro s hs
    obtain ⟨_, hget, _⟩ := mem_meeting.1 hs
    rw [determinize_size]
    exact (Array.getElem?_eq_some_iff.1 hget).1

/-- The state after a word is the number of the set of states after the word; there is none only
where no state is left. -/
theorem determinize_run (hwf : nfa.WellFormed) (hstart : ∀ s ∈ nfa.start, s < nfa.size) {i : Nat}
    {states : StateSet} (hi : (subsetsOf nfa)[i]? = some states) (w : List UInt8) :
    (∀ j, (determinize nfa precedence).run i w = some j →
        (subsetsOf nfa)[j]? = some (nfa.follow states w)) ∧
      ((determinize nfa precedence).run i w = none → nfa.follow states w = .empty) := by
  induction w generalizing i states with
  | nil =>
      refine ⟨fun j hj => ?_, by simp⟩
      obtain rfl : i = j := by simpa using hj
      exact hi
  | cons b w ih =>
      obtain ⟨hsome, hnone⟩ := determinize_next? precedence hwf hstart hi b
      change (∀ j, _ → (subsetsOf nfa)[j]? =
        some (nfa.follow (nfa.closure (nfa.step states b)) w)) ∧
          (_ → nfa.follow (nfa.closure (nfa.step states b)) w = .empty)
      rw [Dfa.run_cons]
      cases hnext : (determinize nfa precedence).next? i b with
      | none =>
          rw [hnone hnext, Nfa.closure_empty, Nfa.follow_empty]
          simp
      | some k => exact ih (hsome k hnext)

/-- Both automata recognize the same words. -/
theorem determinize_recognize (hwf : nfa.WellFormed) (hstart : ∀ s ∈ nfa.start, s < nfa.size)
    (w : List UInt8) : (determinize nfa precedence).recognize w = nfa.recognize w := by
  have hfirst : (subsetsOf nfa)[0]? = some (nfa.closure nfa.start) :=
    (Subsets.ofNfa_spec hwf hstart).1.first
  obtain ⟨hsome, hnone⟩ := determinize_run precedence hwf hstart hfirst w
  rw [Bool.eq_iff_iff, Dfa.recognize_iff, Nfa.recognize, Nfa.run_eq_follow]
  simp only [List.any_eq_true, SortedSet.mem_toList, SortedSet.contains, decide_eq_true_eq]
  constructor
  · rintro ⟨j, hj, hfinal⟩
    obtain ⟨states, hget, s, hs, hmarked⟩ := mem_meeting.1 hfinal
    have heq : states = nfa.follow (nfa.closure nfa.start) w := by
      have hj' := hsome j hj
      change (subsetsOf nfa)[j]? = some states at hget
      rw [hget] at hj'
      exact Option.some.inj hj'
    exact ⟨s, heq ▸ hs, hmarked⟩
  · rintro ⟨s, hs, hmarked⟩
    cases hrun : (determinize nfa precedence).run 0 w with
    | none =>
        rw [hnone hrun] at hs
        exact absurd hs (SortedSet.not_mem_empty s)
    | some j => exact ⟨j, rfl, mem_meeting.2 ⟨_, hsome j hrun, s, hs, hmarked⟩⟩

end Determinize

end Seedling.Automaton
