import Seedling.Automaton.Nfa
import Seedling.Proofs.Reachability
import Seedling.Proofs.SortedMap

/-!
Runs of nondeterministic automata as paths. An edge reads a byte or nothing; a path spells the word
that its edges read. A run keeps exactly the states at the ends of the paths that spell the word so
far, so an automaton recognizes a word when some path from a start state to a final state spells it.
-/

namespace Seedling.Automaton.Nfa

def targets (nfa : Nfa) (s : Nat) (b : UInt8) : StateSet := ((nfa.row s).get? b).getD .empty

def Edge (nfa : Nfa) (s : Nat) : Option UInt8 → Nat → Prop
  | none, t => t ∈ nfa.epsilon s
  | some b, t => t ∈ nfa.targets s b

/-- A path from one state to another spells a word. -/
inductive Path (nfa : Nfa) : Nat → List UInt8 → Nat → Prop where
  | nil (s : Nat) : Path nfa s [] s
  | step {s t u : Nat} {o : Option UInt8} {w : List UInt8} :
      nfa.Edge s o t → Path nfa t w u → Path nfa s (o.toList ++ w) u

/-- All tables have one place for each state. -/
structure Tabled (nfa : Nfa) : Prop where
  edges_size : nfa.edges.size = nfa.size
  epsilons_size : nfa.epsilons.size = nfa.size

/-- All tables have one place for each state, and all edges lead to states. -/
structure WellFormed (nfa : Nfa) : Prop where
  edges_size : nfa.edges.size = nfa.size
  epsilons_size : nfa.epsilons.size = nfa.size
  target_lt : ∀ {s o t}, nfa.Edge s o t → t < nfa.size

variable {nfa : Nfa}

theorem WellFormed.tabled (hwf : nfa.WellFormed) : nfa.Tabled := ⟨hwf.edges_size, hwf.epsilons_size⟩

theorem wellFormed_of_forall (hedges : nfa.edges.size = nfa.size)
    (hepsilons : nfa.epsilons.size = nfa.size)
    (hrow : ∀ row ∈ nfa.edges.toList, ∀ p ∈ row.toList, ∀ t ∈ p.2.toList, t < nfa.size)
    (hsilent : ∀ targets ∈ nfa.epsilons.toList, ∀ t ∈ targets.toList, t < nfa.size) :
    nfa.WellFormed := by
  refine ⟨hedges, hepsilons, fun {s o t} h => ?_⟩
  cases o with
  | none =>
      change t ∈ (nfa.epsilons[s]?).getD .empty at h
      cases hget : nfa.epsilons[s]? with
      | none => simp [hget] at h
      | some targets =>
          rw [hget] at h
          exact hsilent targets (Array.mem_toList_iff.2 (Array.mem_of_getElem? hget)) t h
  | some b =>
      change t ∈ ((nfa.edges[s]?.getD .empty).get? b).getD .empty at h
      cases hget : nfa.edges[s]? with
      | none => simp [hget] at h
      | some row =>
          rw [hget, Option.getD_some] at h
          cases hb : row.get? b with
          | none => simp [hb] at h
          | some targets =>
              rw [hb] at h
              exact hrow row (Array.mem_toList_iff.2 (Array.mem_of_getElem? hget)) (b, targets)
                (SortedMap.get?_eq_some_iff.1 hb) t h

theorem Path.single {s t : Nat} {o : Option UInt8} (h : nfa.Edge s o t) :
    nfa.Path s o.toList t := by
  have hp := Path.step h (.nil t)
  rwa [List.append_nil] at hp

theorem path_iff {s u : Nat} {w : List UInt8} :
    nfa.Path s w u ↔ (s = u ∧ w = []) ∨
      ∃ o t v, nfa.Edge s o t ∧ nfa.Path t v u ∧ w = o.toList ++ v := by
  constructor
  · intro hp
    cases hp with
    | nil _ => exact .inl ⟨rfl, rfl⟩
    | step hedge hp => exact .inr ⟨_, _, _, hedge, hp, rfl⟩
  · rintro (⟨rfl, rfl⟩ | ⟨o, t, v, hedge, hp, rfl⟩)
    · exact .nil s
    · exact .step hedge hp

theorem Path.append {s t u : Nat} {v w : List UInt8} (hst : nfa.Path s v t)
    (htu : nfa.Path t w u) : nfa.Path s (v ++ w) u := by
  induction hst with
  | nil _ => exact htu
  | step hedge _ ih =>
      rw [List.append_assoc]
      exact .step hedge (ih htu)

theorem Path.mono {other : Nfa} (h : ∀ s o t, nfa.Edge s o t → other.Edge s o t) {s u : Nat}
    {w : List UInt8} (hp : nfa.Path s w u) : other.Path s w u := by
  induction hp with
  | nil s => exact .nil s
  | step hedge _ ih => exact .step (h _ _ _ hedge) ih

/-- A path whose end is accepted: what is accepted from its end is accepted, with the word in front,
from its beginning. To bound the words that lead from a state to some states it is enough to guess a
set of words for each state and to check the guess edge by edge. -/
theorem Path.sound (accepts : Nat → List UInt8 → Prop)
    (hedge : ∀ s o t w, nfa.Edge s o t → accepts t w → accepts s (o.toList ++ w)) {s u : Nat}
    {v w : List UInt8} (hp : nfa.Path s v u) (hu : accepts u w) : accepts s (v ++ w) := by
  induction hp with
  | nil _ => exact hu
  | step h _ ih =>
      rw [List.append_assoc]
      exact hedge _ _ _ _ h (ih hu)

theorem path_nil_iff {s u : Nat} :
    nfa.Path s [] u ↔ Reachability.Reaches nfa.epsilon s u := by
  constructor
  · intro hp
    generalize hv : ([] : List UInt8) = v at hp
    induction hp with
    | nil s => exact .refl
    | @step s t u o w h _ ih =>
        cases o with
        | none => exact .head h (ih hv)
        | some b => simp at hv
  · intro hr
    induction hr using Relation.ReflTransGen.head_induction_on with
    | refl => exact .nil u
    | head h _ ih => exact .step (o := none) h ih

theorem path_cons_iff {s u : Nat} {b : UInt8} {w : List UInt8} :
    nfa.Path s (b :: w) u ↔
      ∃ s' t, Reachability.Reaches nfa.epsilon s s' ∧ nfa.Edge s' (some b) t ∧
        nfa.Path t w u := by
  constructor
  · intro hp
    generalize hv : b :: w = v at hp
    induction hp with
    | nil s => simp at hv
    | @step s t u o w' h hrest ih =>
        cases o with
        | none =>
            obtain ⟨s', t', hreach, hedge, hpath⟩ := ih hv
            exact ⟨s', t', .head h hreach, hedge, hpath⟩
        | some c =>
            obtain ⟨rfl, rfl⟩ : b = c ∧ w = w' := by simpa using hv
            exact ⟨s, t, .refl, h, hrest⟩
  · rintro ⟨s', t, hreach, hedge, hpath⟩
    exact (path_nil_iff.2 hreach).append (.step hedge hpath)

/-- Some numbers that no edge leads out of, each of them with a row if an edge leads to it. -/
def Encloses (nfa : Nfa) (within : Nat → Prop) : Prop :=
  ∀ s o t, within s → nfa.Edge s o t → within t ∧ t < nfa.epsilons.size

section Enclosed

variable {within : Nat → Prop} {states : StateSet} {u : Nat}

theorem Encloses.path (h : nfa.Encloses within) {s : Nat} {w : List UInt8} (hs : within s)
    (hp : nfa.Path s w u) : within u := by
  induction hp with
  | nil _ => exact hs
  | step hedge _ ih => exact ih (h _ _ _ hs hedge).1

theorem mem_closure_of_encloses (h : nfa.Encloses within) (hstates : ∀ s ∈ states, within s) :
    u ∈ nfa.closure states ↔ ∃ s ∈ states, nfa.Path s [] u := by
  simp only [path_nil_iff]
  exact Reachability.mem_closure_iff_of_encloses (fun s hs t ht => h s none t hs ht) hstates

end Enclosed

theorem WellFormed.encloses (hwf : nfa.WellFormed) : nfa.Encloses fun _ => True := by
  intro s o t _ hedge
  rw [hwf.epsilons_size]
  exact ⟨trivial, hwf.target_lt hedge⟩

theorem mem_closure (hwf : nfa.WellFormed) {states : StateSet} {u : Nat} :
    u ∈ nfa.closure states ↔ ∃ s ∈ states, nfa.Path s [] u :=
  mem_closure_of_encloses hwf.encloses fun _ _ => trivial

theorem mem_step {states : StateSet} {b : UInt8} {t : Nat} :
    t ∈ nfa.step states b ↔ ∃ s ∈ states, nfa.Edge s (some b) t := by
  obtain ⟨l, hl⟩ := states
  change t ∈ l.foldr _ _ ↔ ∃ s ∈ l, _
  clear hl
  induction l with
  | nil => simp
  | cons s l ih =>
      rw [List.foldr_cons, SortedSet.mem_union, ih]
      simp only [List.mem_cons, exists_eq_or_imp]
      exact or_comm

/-- A run keeps the ends of all paths that spell the word. -/
theorem mem_run_of_encloses {within : Nat → Prop} (h : nfa.Encloses within) {states : StateSet}
    (hstates : ∀ s ∈ states, within s) {w : List UInt8} {u : Nat} :
    u ∈ nfa.run states w ↔ ∃ s ∈ states, nfa.Path s w u := by
  induction w generalizing states with
  | nil => exact mem_closure_of_encloses h hstates
  | cons b w ih =>
      have hclosure := fun {t} => mem_closure_of_encloses (u := t) h hstates
      have hstep : ∀ t ∈ nfa.step (nfa.closure states) b, within t := by
        intro t ht
        obtain ⟨s', hs', hedge⟩ := mem_step.1 ht
        obtain ⟨s, hs, hpath⟩ := hclosure.1 hs'
        exact (h _ _ _ (h.path (hstates s hs) hpath) hedge).1
      change u ∈ nfa.run (nfa.step (nfa.closure states) b) w ↔ _
      simp only [ih hstep, mem_step, hclosure, path_cons_iff, path_nil_iff]
      constructor
      · rintro ⟨t, ⟨s', ⟨s, hs, hreach⟩, hedge⟩, hpath⟩
        exact ⟨s, hs, s', t, hreach, hedge, hpath⟩
      · rintro ⟨s, hs, s', t, hreach, hedge, hpath⟩
        exact ⟨t, ⟨s', ⟨s, hs, hreach⟩, hedge⟩, hpath⟩

theorem mem_run (hwf : nfa.WellFormed) {states : StateSet} {w : List UInt8} {u : Nat} :
    u ∈ nfa.run states w ↔ ∃ s ∈ states, nfa.Path s w u :=
  mem_run_of_encloses hwf.encloses fun _ _ => trivial

@[simp] theorem closure_empty (nfa : Nfa) : nfa.closure .empty = .empty := rfl

@[simp] theorem step_empty (nfa : Nfa) (b : UInt8) : nfa.step .empty b = .empty := rfl

/-- Once no state is left, none comes back. -/
theorem foldl_step_empty (nfa : Nfa) (w : List UInt8) :
    w.foldl (fun states b => nfa.closure (nfa.step states b)) .empty = .empty := by
  induction w with
  | nil => rfl
  | cons b w ih => rw [List.foldl_cons, step_empty, closure_empty, ih]

/-- The words that an automaton recognizes are those that lead from a start to a final state. -/
theorem recognize_iff (hwf : nfa.WellFormed) {w : List UInt8} :
    nfa.recognize w = true ↔ ∃ s ∈ nfa.start, ∃ f ∈ nfa.final, nfa.Path s w f := by
  simp only [recognize, List.any_eq_true, SortedSet.mem_toList, SortedSet.contains,
    decide_eq_true_eq, mem_run hwf]
  constructor
  · rintro ⟨f, ⟨s, hs, hpath⟩, hf⟩
    exact ⟨s, hs, f, hf, hpath⟩
  · rintro ⟨s, hs, f, hf, hpath⟩
    exact ⟨f, ⟨s, hs, hpath⟩, hf⟩

end Seedling.Automaton.Nfa
