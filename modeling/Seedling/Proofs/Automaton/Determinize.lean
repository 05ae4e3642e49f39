import Seedling.Proofs.Automaton.Subset

/-!
What the states of the subset construction stand for. A state is final, and must survive, when the
set behind it has such a member; it is called by the member that must survive and comes first in the
order of precedence, or else by all of its members. No set is numbered that no word leads to, and
once every set has its row there is nothing left to do.
-/

namespace Seedling.Automaton

section Naming

variable (nfa : Nfa) (precedence : Option (List String))

/-- The place of a state in the order of precedence. Without an order all states are on a par. -/
def rankIn (s : Nat) : Nat :=
  match precedence with
  | none => 0
  | some order => rank order (nfa.name s)

/-- The member that a set is called by: of those that must survive it has the least rank, and of
those with this rank it has the highest number. -/
structure Prevails (states : StateSet) (s : Nat) : Prop where
  mem : s ∈ states
  unmergeable : s ∈ nfa.unmergeable
  first : ∀ t ∈ states, t ∈ nfa.unmergeable →
    rankIn nfa precedence s < rankIn nfa precedence t ∨
      rankIn nfa precedence s = rankIn nfa precedence t ∧ t ≤ s

variable {nfa precedence}

theorem Prevails.unique {states : StateSet} {s t : Nat} (hs : Prevails nfa precedence states s)
    (ht : Prevails nfa precedence states t) : s = t := by
  have hst := hs.first t ht.mem ht.unmergeable
  have hts := ht.first s hs.mem hs.unmergeable
  omega

theorem bestRanked_isSome (rankOf : Nat → Nat) {l : List Nat} (h : l ≠ []) :
    ∃ m, bestRanked rankOf l = some m := by
  cases l with
  | nil => contradiction
  | cons s rest =>
      rw [bestRanked]
      split
      · exact ⟨s, rfl⟩
      · split
        · exact ⟨s, rfl⟩
        · exact ⟨_, rfl⟩

/-- The best ranked of ascending states is one of them, of the least rank and the last of these. -/
theorem bestRanked_spec {rankOf : Nat → Nat} {l : List Nat} {m : Nat} (hl : l.Pairwise (· < ·))
    (h : bestRanked rankOf l = some m) :
    m ∈ l ∧ ∀ t ∈ l, rankOf m < rankOf t ∨ rankOf m = rankOf t ∧ t ≤ m := by
  induction l generalizing m with
  | nil => contradiction
  | cons s rest ih =>
      obtain ⟨hs, hrest⟩ := List.pairwise_cons.1 hl
      rw [bestRanked] at h
      cases hbest : bestRanked rankOf rest with
      | none =>
          rw [hbest] at h
          obtain rfl := Option.some.inj h
          have hnil : rest = [] := by
            by_contra hne
            obtain ⟨t, ht⟩ := bestRanked_isSome rankOf hne
            rw [ht] at hbest
            contradiction
          simp [hnil]
      | some t =>
          obtain ⟨hmem, hfirst⟩ := ih hrest hbest
          rw [hbest] at h
          simp only at h
          split at h
          · rename_i hlt
            obtain rfl := Option.some.inj h
            refine ⟨by simp, fun u hu => ?_⟩
            rcases List.mem_cons.1 hu with rfl | hu
            · exact .inr ⟨rfl, Nat.le_refl _⟩
            · have := hfirst u hu
              omega
          · rename_i hge
            obtain rfl := Option.some.inj h
            refine ⟨by simp [hmem], fun u hu => ?_⟩
            rcases List.mem_cons.1 hu with rfl | hu
            · have := hs t hmem
              omega
            · exact hfirst u hu

theorem bestRanked_const (k : Nat) (l : List Nat) : bestRanked (fun _ => k) l = l.getLast? := by
  induction l with
  | nil => rfl
  | cons s rest ih =>
      rw [bestRanked, ih, List.getLast?_cons]
      cases rest.getLast? with
      | none => rfl
      | some t => simp

/-- With or without an order, a member that must survive names the set. -/
theorem subsetName_eq_bestRanked {states : StateSet}
    (h : (states.toList.filter fun s => nfa.unmergeable.contains s) ≠ []) :
    subsetName nfa precedence states =
      nfa.name ((bestRanked (rankIn nfa precedence)
        (states.toList.filter fun s => nfa.unmergeable.contains s)).getD 0) := by
  rw [subsetName]
  split
  · contradiction
  · cases precedence with
    | some order => rfl
    | none =>
        have hrank : rankIn nfa none = fun _ => 0 := rfl
        simp only [hrank, bestRanked_const, List.getLastD_eq_getLast?]

theorem subsetName_of_unmarked {states : StateSet} (h : ∀ s ∈ states, s ∉ nfa.unmergeable) :
    subsetName nfa precedence states = ", ".intercalate (states.toList.map nfa.name) := by
  have hnone : (states.toList.filter fun s => nfa.unmergeable.contains s) = [] := by
    refine List.filter_eq_nil_iff.2 fun s hs => ?_
    simpa [SortedSet.contains] using h s hs
  rw [subsetName, hnone]

theorem subsetName_of_marked {states : StateSet} (h : ∃ s ∈ states, s ∈ nfa.unmergeable) :
    ∃ s, Prevails nfa precedence states s ∧ subsetName nfa precedence states = nfa.name s := by
  have hmem : ∀ s, s ∈ (states.toList.filter fun s => nfa.unmergeable.contains s) ↔
      s ∈ states ∧ s ∈ nfa.unmergeable := fun s => by
    simp [SortedSet.contains]
  have hne : (states.toList.filter fun s => nfa.unmergeable.contains s) ≠ [] := by
    obtain ⟨s, hs⟩ := h
    exact List.ne_nil_of_mem ((hmem s).2 hs)
  obtain ⟨m, hm⟩ := bestRanked_isSome (rankIn nfa precedence) hne
  obtain ⟨hin, hfirst⟩ := bestRanked_spec (states.sorted.filter _) hm
  refine ⟨m, ⟨((hmem m).1 hin).1, ((hmem m).1 hin).2, fun t ht hmark => ?_⟩, ?_⟩
  · exact hfirst t ((hmem t).2 ⟨ht, hmark⟩)
  · rw [subsetName_eq_bestRanked hne, hm]
    rfl

end Naming

namespace Subsets

variable {nfa : Nfa}

theorem numberMoves_reached (moves : List (UInt8 × StateSet)) (n : Numbering) {i : Nat}
    (h : i < (numberMoves moves n).1.sets.size) :
    i < n.sets.size ∨ ∃ b, (b, i) ∈ (numberMoves moves n).2 := by
  induction moves generalizing n with
  | nil => exact .inl h
  | cons p rest ih =>
      obtain ⟨b, states⟩ := p
      rcases ih (n.intern states).1 h with hlt | ⟨c, hc⟩
      · rcases n.intern_eq states with ⟨_, heq⟩ | ⟨hsets, hnumber⟩
        · rw [heq] at hlt
          exact .inl hlt
        · rw [hsets, Array.size_push] at hlt
          rcases Nat.lt_succ_iff_lt_or_eq.1 hlt with hlt | rfl
          · exact .inl hlt
          · exact .inr ⟨b, by simp [numberMoves, hnumber]⟩
      · exact .inr ⟨c, by simp [numberMoves, hc]⟩

/-- Every set but the first is the target of an earlier one. -/
def Reached (subsets : Subsets) : Prop :=
  ∀ i < subsets.numbering.sets.size, i ≠ 0 →
    ∃ j < i, ∃ row b, subsets.rows[j]? = some row ∧ row.get? b = some i

theorem Reached.advance {subsets : Subsets} (h : subsets.Reached) {states : StateSet}
    (hnext : subsets.numbering.sets[subsets.rows.size]? = some states) :
    (advance nfa states subsets).Reached := by
  have hlt : subsets.rows.size < subsets.numbering.sets.size :=
    (Array.getElem?_eq_some_iff.1 hnext).1
  obtain ⟨_, hrow⟩ := numberMoves_spec (closedMoves nfa states) subsets.numbering
  have hsorted := pairwise_of_forall₂ hrow (pairwise_closedMoves states)
  rw [advance_eq]
  intro i hi hne
  by_cases hold : i < subsets.numbering.sets.size
  · obtain ⟨j, hj, row, b, hget, hb⟩ := h i hold hne
    have hjlt : j < subsets.rows.size := (Array.getElem?_eq_some_iff.1 hget).1
    exact ⟨j, hj, row, b, by rw [Array.getElem?_push_lt hjlt, ← hget, Array.getElem?_eq_getElem],
      hb⟩
  · obtain ⟨b, hb⟩ := (numberMoves_reached _ _ hi).resolve_left hold
    refine ⟨subsets.rows.size, by omega, _, b, Array.getElem?_push_size, ?_⟩
    rw [SortedMap.get?_ofList hsorted]
    exact (SortedMap.lookup_eq_some_iff hsorted).2 hb

/-- What every advance keeps is kept. -/
theorem saturate_induction {motive : Subsets → Prop}
    (hadvance : ∀ {subsets : Subsets} {states : StateSet}, motive subsets →
      subsets.numbering.sets[subsets.rows.size]? = some states →
        motive (advance nfa states subsets))
    (rounds : Nat) {subsets : Subsets} (h : motive subsets) :
    motive (saturate nfa rounds subsets) := by
  induction rounds generalizing subsets with
  | zero => exact h
  | succ rounds ih =>
      rw [saturate]
      split
      · exact h
      · rename_i states hnext
        exact ih (hadvance h hnext)

theorem reached_ofNfa (nfa : Nfa) : (ofNfa nfa).Reached := by
  refine saturate_induction (fun h hnext => h.advance hnext) _ fun i hi hne => ?_
  rw [Numbering.sets_intern_empty] at hi
  exact absurd (Nat.lt_one_iff.1 hi) hne

/-- When every set has its row, further rounds change nothing. -/
theorem saturate_ofNfa (hwf : nfa.WellFormed) (hstart : ∀ s ∈ nfa.start, s < nfa.size)
    (rounds : Nat) : saturate nfa rounds (ofNfa nfa) = ofNfa nfa := by
  have hsize := (ofNfa_spec hwf hstart).2
  cases rounds with
  | zero => rfl
  | succ rounds => rw [saturate, hsize, Array.getElem?_eq_none (Nat.le_refl _)]

end Subsets

/-- A state of a deterministic automaton that stands for a set of states. -/
structure StandsFor (nfa : Nfa) (precedence : Option (List String)) (d : Dfa) (q : Nat)
    (states : StateSet) : Prop where
  final : q ∈ d.final ↔ ∃ s ∈ states, s ∈ nfa.final
  unmergeable : q ∈ d.unmergeable ↔ ∃ s ∈ states, s ∈ nfa.unmergeable
  joined : (∀ s ∈ states, s ∉ nfa.unmergeable) →
    d.name q = ", ".intercalate (states.toList.map nfa.name)
  named : (∃ s ∈ states, s ∈ nfa.unmergeable) →
    ∃ s, Prevails nfa precedence states s ∧ d.name q = nfa.name s

section Determinize

variable {nfa : Nfa} (precedence : Option (List String))

theorem mem_meeting_iff {sets : Array StateSet} {marked states : StateSet} {i : Nat}
    (h : sets[i]? = some states) : i ∈ meeting sets marked ↔ ∃ s ∈ states, s ∈ marked := by
  rw [mem_meeting]
  constructor
  · rintro ⟨other, hother, hmeets⟩
    rw [h] at hother
    exact Option.some.inj hother ▸ hmeets
  · exact fun hmeets => ⟨states, h, hmeets⟩

theorem determinize_name {i : Nat} {states : StateSet} (h : (subsetsOf nfa)[i]? = some states) :
    (determinize nfa precedence).name i = subsetName nfa precedence states := by
  have h' : (Subsets.ofNfa nfa).numbering.sets[i]? = some states := h
  simp [Dfa.name, determinize, h']

/-- The state with the number of a set stands for it. -/
theorem standsFor_determinize {i : Nat} {states : StateSet}
    (h : (subsetsOf nfa)[i]? = some states) :
    StandsFor nfa precedence (determinize nfa precedence) i states where
  final := mem_meeting_iff h
  unmergeable := mem_meeting_iff h
  joined hnone := by rw [determinize_name precedence h, subsetName_of_unmarked hnone]
  named hsome := by
    rw [determinize_name precedence h]
    exact subsetName_of_marked hsome

variable (hwf : nfa.WellFormed) (hstart : ∀ s ∈ nfa.start, s < nfa.size)
include hwf hstart

/-- The number of the state after a word is that of the set of states after the word. -/
theorem subsetsOf_run {w : List UInt8} {q : Nat}
    (h : (determinize nfa precedence).run 0 w = some q) :
    (subsetsOf nfa)[q]? = some (nfa.run nfa.start w) :=
  (determinize_run precedence hwf hstart (Subsets.ofNfa_spec hwf hstart).1.first w).1 q h

theorem run_eq_empty_of_determinize {w : List UInt8}
    (h : (determinize nfa precedence).run 0 w = none) : nfa.run nfa.start w = .empty :=
  (determinize_run precedence hwf hstart (Subsets.ofNfa_spec hwf hstart).1.first w).2 h

omit hstart in
theorem closure_ne_empty {states : StateSet} (h : ∃ s, s ∈ states) :
    nfa.closure states ≠ .empty := by
  obtain ⟨s, hs⟩ := h
  intro hempty
  have hmem := (Nfa.mem_closure hwf).2 ⟨s, hs, .nil s⟩
  rw [hempty] at hmem
  exact SortedSet.not_mem_empty s hmem

/-- Where every byte leads somewhere, a run of at least one byte is missing exactly where no
state is left. -/
theorem determinize_run_eq_none_iff (hfilled : nfa.Filled) {i : Nat} {states : StateSet}
    (hi : (subsetsOf nfa)[i]? = some states) {w : List UInt8} (hw : states ≠ .empty ∨ w ≠ []) :
    (determinize nfa precedence).run i w = none ↔ nfa.follow states w = .empty := by
  induction w generalizing i states with
  | nil =>
      have hstates : states ≠ .empty := hw.resolve_right fun h => h rfl
      exact iff_of_false (by simp) hstates
  | cons b w ih =>
      change _ ↔ nfa.follow (nfa.closure (nfa.step states b)) w = .empty
      obtain ⟨hsome, hnone⟩ := rowOf_determinize precedence hwf hstart hi b
      rw [Dfa.run_cons]
      cases hnext : (determinize nfa precedence).next? i b with
      | none =>
          have hstep := (Subsets.get?_moves nfa states b).2 (hnone.1 hnext)
          rw [hstep, Nfa.closure_empty, Nfa.follow_empty]
          exact iff_of_true rfl rfl
      | some j =>
          have hmoves : (Subsets.moves nfa states).get? b ≠ none := fun hmoves => by
            rw [Dfa.next?, hnone.2 hmoves] at hnext
            contradiction
          obtain ⟨targets, htargets⟩ := Option.ne_none_iff_exists'.1 hmoves
          have hstep : ∃ t, t ∈ nfa.step states b := by
            rw [← (Subsets.get?_moves nfa states b).1 targets htargets]
            exact Subsets.exists_mem_of_get?_moves hfilled htargets
          exact ih (hsome j hnext) (.inl (closure_ne_empty hwf hstep))

/-- Words lead to one state just when they lead to one set. -/
theorem determinize_run_eq_iff {v w : List UInt8} {p q : Nat}
    (hp : (determinize nfa precedence).run 0 v = some p)
    (hq : (determinize nfa precedence).run 0 w = some q) :
    p = q ↔ nfa.run nfa.start v = nfa.run nfa.start w := by
  have hv := subsetsOf_run precedence hwf hstart hp
  have hw := subsetsOf_run precedence hwf hstart hq
  constructor
  · rintro rfl
    rw [hv] at hw
    exact Option.some.inj hw
  · intro heq
    rw [← heq] at hw
    exact Numbering.eq_of_getElem? _ hv hw

omit hwf hstart in
/-- Some word leads to each state: its set was met in the row of an earlier one. -/
theorem exists_determinize_run {q : Nat} (hq : q < (determinize nfa precedence).size) :
    ∃ w, (determinize nfa precedence).run 0 w = some q := by
  induction q using Nat.strong_induction_on with
  | _ q ih =>
      by_cases hzero : q = 0
      · exact ⟨[], by rw [hzero]; rfl⟩
      rw [determinize_size] at hq
      obtain ⟨j, hj, row, b, hrow, hb⟩ := Subsets.reached_ofNfa nfa q hq hzero
      obtain ⟨w, hw⟩ := ih j hj (by rw [determinize_size]; exact Nat.lt_trans hj hq)
      refine ⟨w ++ [b], ?_⟩
      have hnext : (determinize nfa precedence).next? j b = some q := by
        simp [Dfa.next?, Dfa.row, determinize, hrow, hb]
      rw [Dfa.run_append, hw, Option.bind_some, Dfa.run_cons, hnext]
      rfl

/-- The subset construction is exact. It comes to an end, with a row for every set that it met. The
state after a word stands for the set of the states that some path spelling the word leads to, and
where there is none this set is empty; so both automata recognize the same words. Words come to one
state just when they come to one set, and some word comes to each state. -/
theorem determinize_exact :
    (∀ rounds, Subsets.saturate nfa rounds (Subsets.ofNfa nfa) = Subsets.ofNfa nfa) ∧
      (determinize nfa precedence).Valid ∧
      (∀ w t, t ∈ nfa.run nfa.start w ↔ ∃ s ∈ nfa.start, nfa.Path s w t) ∧
      (∀ w q, (determinize nfa precedence).run 0 w = some q →
        StandsFor nfa precedence (determinize nfa precedence) q (nfa.run nfa.start w)) ∧
      (∀ w, (determinize nfa precedence).run 0 w = none → nfa.run nfa.start w = .empty) ∧
      (∀ w, (determinize nfa precedence).recognize w = nfa.recognize w) ∧
      (∀ v w p q, (determinize nfa precedence).run 0 v = some p →
        (determinize nfa precedence).run 0 w = some q →
          (p = q ↔ nfa.run nfa.start v = nfa.run nfa.start w)) ∧
      ∀ q < (determinize nfa precedence).size,
        ∃ w, (determinize nfa precedence).run 0 w = some q := by
  refine ⟨Subsets.saturate_ofNfa hwf hstart, determinize_valid precedence hwf hstart,
    fun w t => Nfa.mem_run hwf, fun w q hq => ?_,
    fun w => run_eq_empty_of_determinize precedence hwf hstart,
    determinize_recognize precedence hwf hstart,
    fun v w p q => determinize_run_eq_iff precedence hwf hstart,
    fun q => exists_determinize_run precedence⟩
  exact standsFor_determinize precedence (subsetsOf_run precedence hwf hstart hq)

end Determinize

/-- Two states that must survive after one `i`, behind a circle of silent edges; nothing follows
`j`. -/
def keywords : Nfa where
  names := #["start", "again", "name", "if"]
  edges := #[.ofList [(105, .ofList [2, 3]), (106, .empty)], .empty, .empty, .empty]
  epsilons := #[.singleton 1, .singleton 0, .empty, .empty]
  start := .singleton 0
  final := .ofList [2, 3]
  unmergeable := .ofList [2, 3]

/-- After `i` there is a final state, called by the name that is listed; after `ii` nothing is
left. -/
theorem determinize_keywords :
    keywords.WellFormed ∧ (∀ s ∈ keywords.start, s < keywords.size) ∧
      (∃ q, (determinize keywords (some ["name"])).run 0 [105] = some q ∧
        q ∈ (determinize keywords (some ["name"])).final ∧
        (determinize keywords (some ["name"])).name q = "name") ∧
      (determinize keywords (some ["name"])).recognize [105, 105] = false := by
  have hwf : keywords.WellFormed :=
    Nfa.wellFormed_of_forall rfl rfl (by decide) (by decide)
  have hstart : ∀ s ∈ keywords.start, s < keywords.size := by
    intro s hs
    obtain rfl : s = 0 := SortedSet.mem_singleton.1 hs
    decide
  have hset : keywords.run keywords.start [105] = .ofList [2, 3] := by decide
  obtain ⟨-, -, -, hstands, hnone, hrecognize, -⟩ :=
    determinize_exact (some ["name"]) hwf hstart
  refine ⟨hwf, hstart, ?_, by rw [hrecognize]; decide⟩
  cases hrun : (determinize keywords (some ["name"])).run 0 [105] with
  | none =>
      have hempty := hnone _ hrun
      rw [hset] at hempty
      exact absurd hempty (by decide)
  | some q =>
      have hq := hstands _ q hrun
      rw [hset] at hq
      refine ⟨q, rfl, hq.final.2 ⟨2, by decide, by decide⟩, ?_⟩
      obtain ⟨s, hs, hname⟩ := hq.named ⟨2, by decide, by decide⟩
      -- State 3 has the higher number but is not listed.
      have htwo : Prevails keywords (some ["name"]) (.ofList [2, 3]) 2 :=
        ⟨by decide, by decide, fun t ht _ => by
          rcases (by simpa using ht : t = 2 ∨ t = 3) with rfl | rfl <;> decide⟩
      rw [hname, hs.unique htwo]
      rfl

end Seedling.Automaton
