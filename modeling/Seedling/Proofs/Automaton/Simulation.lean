import Mathlib.Order.Bounds.Defs
import Seedling.Proofs.Automaton.Path

/-!
Simulation of nondeterministic automata by sets of states. What is reached without reading is
found by a search that ends even if silent edges run in circles, and is the least set that no
silent edge leaves. A simulation may stop as soon as no state is left; either way it accepts the
words that are spelled by the paths from a start to a final state.
-/

namespace Seedling.Automaton.Nfa

variable {nfa : Nfa} {states : StateSet}

/-- No edge that reads nothing leads out of these states. -/
def SilentlyClosed (nfa : Nfa) (among : Set Nat) : Prop :=
  ∀ s ∈ among, ∀ t, nfa.Edge s none t → t ∈ among

/-- Goes on from some states with a word, and gives up when no state is left. -/
def simulate (nfa : Nfa) (states : StateSet) : List UInt8 → Bool
  | [] => states.toList.any fun s => nfa.final.contains s
  | b :: w => if states.isEmpty then false else nfa.simulate (nfa.closure (nfa.step states b)) w

/-! ### Closures -/

/-- The search for a closure ends, in whatever order it goes, and finds each state's row in the
table. -/
theorem closure_ends (hwf : nfa.WellFormed) (hstates : ∀ s ∈ states, s < nfa.size) :
    (Reachability.Search.start states).Ends nfa.epsilon nfa.epsilons.size (nfa.closure states) := by
  have hnext : Reachability.Encloses nfa.epsilon nfa.epsilons.size (· < nfa.epsilons.size) := by
    intro s _ t ht
    have hlt : t < nfa.epsilons.size := by
      rw [hwf.epsilons_size]
      exact hwf.target_lt (o := none) ht
    exact ⟨hlt, hlt⟩
  refine (Reachability.Search.sound_start nfa.epsilon states).ends hnext fun s hs => ?_
  rw [hwf.epsilons_size]
  exact hstates s hs

theorem subset_closure (hwf : nfa.WellFormed) {s : Nat} (hs : s ∈ states) :
    s ∈ nfa.closure states :=
  (mem_closure hwf).2 ⟨s, hs, .nil s⟩

theorem closure_silentlyClosed (hwf : nfa.WellFormed) (states : StateSet) :
    nfa.SilentlyClosed {u | u ∈ nfa.closure states} := by
  intro t ht u hedge
  obtain ⟨s, hs, hpath⟩ := (mem_closure hwf).1 ht
  exact (mem_closure hwf).2 ⟨s, hs, hpath.append (.single hedge)⟩

theorem SilentlyClosed.path {among : Set Nat} (h : nfa.SilentlyClosed among) {s u : Nat}
    (hs : s ∈ among) (hpath : nfa.Path s [] u) : u ∈ among := by
  rw [path_nil_iff] at hpath
  induction hpath with
  | refl => exact hs
  | tail _ hedge ih => exact h _ ih _ hedge

theorem closure_isLeast (hwf : nfa.WellFormed) (states : StateSet) :
    IsLeast {among : Set Nat | (∀ s ∈ states, s ∈ among) ∧ nfa.SilentlyClosed among}
      {u | u ∈ nfa.closure states} := by
  refine ⟨⟨fun s hs => subset_closure hwf hs, closure_silentlyClosed hwf states⟩, ?_⟩
  rintro among ⟨hsub, hclosed⟩ u hu
  obtain ⟨s, hs, hpath⟩ := (mem_closure hwf).1 hu
  exact hclosed.path (hsub s hs) hpath

/-! ### Words -/

theorem eq_empty_of_isEmpty (h : states.isEmpty = true) : states = .empty := by
  refine SortedSet.ext_mem fun s => ?_
  rw [SortedSet.isEmpty, List.isEmpty_iff] at h
  rw [← SortedSet.mem_toList, h]
  simp

/-- Giving up early changes nothing. -/
theorem simulate_eq (nfa : Nfa) (states : StateSet) (w : List UInt8) :
    nfa.simulate states w =
      (w.foldl (fun states b => nfa.closure (nfa.step states b)) states).toList.any
        fun s => nfa.final.contains s := by
  induction w generalizing states with
  | nil => rfl
  | cons b w ih =>
      rw [simulate]
      split
      · rename_i hempty
        rw [eq_empty_of_isEmpty hempty, foldl_step_empty]
        rfl
      · exact ih _

/-- For an automaton whose numbers are in range: the search for a closure ends, in whatever
order it goes, with the least set of states that has the given ones and that no silent edge
leaves; and the words that are recognized, whether or not the simulation stops once no state is
left, are those that some path from a start to a final state spells. -/
theorem simulation_exact (hwf : nfa.WellFormed) :
    (∀ states : StateSet,
      ((∀ s ∈ states, s < nfa.size) →
        (Reachability.Search.start states).Ends nfa.epsilon nfa.epsilons.size
          (nfa.closure states)) ∧
      IsLeast {among : Set Nat | (∀ s ∈ states, s ∈ among) ∧ nfa.SilentlyClosed among}
        {u | u ∈ nfa.closure states}) ∧
    ∀ w : List UInt8,
      (nfa.recognize w = true ↔ ∃ s ∈ nfa.start, ∃ f ∈ nfa.final, nfa.Path s w f) ∧
      nfa.simulate (nfa.closure nfa.start) w = nfa.recognize w :=
  ⟨fun states => ⟨closure_ends hwf, closure_isLeast hwf states⟩,
    fun w => ⟨recognize_iff hwf, simulate_eq nfa _ w⟩⟩

/-- Any number of `a`, at least one; silent edges run in a circle. -/
def circling : Nfa where
  names := #["out", "back", "read"]
  edges := #[.empty, .ofList [(97, .singleton 2)], .empty]
  epsilons := #[.singleton 1, .singleton 0, .ofList [0, 2]]
  start := .singleton 0
  final := .singleton 2
  unmergeable := .empty

theorem simulation_circling :
    circling.WellFormed ∧
      (Reachability.Search.start (.singleton 0)).Ends circling.epsilon 3 (.ofList [0, 1]) ∧
      (∀ among : Set Nat, 0 ∈ among → circling.SilentlyClosed among → 1 ∈ among) ∧
      (∃ s ∈ circling.start, ∃ f ∈ circling.final, circling.Path s [97, 97] f) ∧
      circling.simulate (circling.closure circling.start) [98, 97] = false := by
  have hwf : circling.WellFormed := wellFormed_of_forall rfl rfl (by decide) (by decide)
  have hclosure : circling.closure (.singleton 0) = .ofList [0, 1] := by decide
  obtain ⟨hclosures, hwords⟩ := simulation_exact hwf
  obtain ⟨hends, hleast⟩ := hclosures (.singleton 0)
  rw [hclosure] at hends hleast
  refine ⟨hwf, hends (by simp [circling, size]), fun among hzero hclosed => ?_, ?_, ?_⟩
  · exact hleast.2 ⟨by simpa using hzero, hclosed⟩ (by simp)
  · exact (hwords [97, 97]).1.1 (by decide)
  · rw [(hwords [98, 97]).2]
    decide

end Seedling.Automaton.Nfa
