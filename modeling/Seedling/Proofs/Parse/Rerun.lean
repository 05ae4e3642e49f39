import Mathlib.Order.BoundedOrder.Lattice
import Seedling.Proofs.Parse.Comparison
import Seedling.Proofs.Parse.Failure
import Seedling.Proofs.Parse.Refinement

/-!
Parsing without a memo table: every application of a rule evaluates its body. What a rule comes
to at a position, and what is reported on the way, then depends on nothing but the rule and the
position: not on the applications around it, nor on what was reported before, nor on how much
room is left, so long as it is enough. Without left recursion it is enough to have room for
every rule at every position.
-/

namespace Seedling

/-- Applies a rule inside the applications `active`, with room for `room` more, by evaluating
its body. -/
def Task.rerun {ω : Type} (task : Task ω) : Nat → List Call → Apply ω
  | 0, active, _, _, s =>
      (.abort (.recursionLimitExceeded (active.length + 1) active.length), s)
  | room + 1, active, rule, pos, s =>
      task.body (rerun task room (⟨rule, pos⟩ :: active)) (⟨rule, pos⟩ :: active) rule pos s

theorem Task.rerun_goes {ω : Type} (task : Task ω) (room : Nat) (active : List Call) (r : RuleId)
    (p : Nat) (s : Session ω) : task.Goes s (task.rerun room active r p s).2 := by
  induction room generalizing active r p s with
  | zero => exact .refl
  | succ room ih => exact task.body_goes (ih (⟨r, p⟩ :: active)) (⟨r, p⟩ :: active) r p s

section Shift

variable {g : Grammar} {subject : Subject} {active active' : List Call} {r : RuleId} {p : Nat}
  {s t : Session Unit} {room room' : Nat}

variable (g subject) in
/-- Two evaluations that report the same, one on top of `f` and the other on top of `f'`. -/
def shift (f f' : Failure) (active active' : List Call) :
    Comparison g subject .silent .silent active active' where
  Alike s t := ∃ more, s.furthest = f ⊔ more ∧ t.furthest = f' ⊔ more
  Lost e _ _ := e.isSome = true
  note _ _ h := h
  fail failure h := by
    obtain ⟨more, hs, ht⟩ := h
    refine ⟨more ⊔ failure, ?_, ?_⟩ <;> rw [Session.furthest_fail, ← sup_assoc]
    · rw [hs]
    · rw [ht]
  lost_first _ _ h := nomatch h
  lost_second h _ := h

/-- What a rule comes to and reports does not depend on what is around it, and with more room it
is the same. -/
theorem rerun_shifts {f f' : Failure} (hroom : room ≤ room')
    (h : (shift g subject f f' active active').Alike s t) :
    (shift g subject f f' active active').Holds
      (Task.rerun ⟨g, subject, .silent⟩ room active r p s)
      (Task.rerun ⟨g, subject, .silent⟩ room' active' r p t) := by
  induction room generalizing room' active active' r p s t with
  | zero => exact .inr rfl
  | succ room ih =>
      obtain ⟨room', rfl⟩ : ∃ n, room' = n + 1 := ⟨room' - 1, by omega⟩
      refine Comparison.body_related
        (C := shift g subject f f' (⟨r, p⟩ :: active) (⟨r, p⟩ :: active'))
        (Task.rerun_goes _ room' _) (fun _ _ _ _ _ => trivial)
        (fun _ _ q s t h => ih (Nat.le_of_succ_le_succ hroom) h)
          (fun bound _ _ heval q out s t h => ?_)
        (fun _ _ => trivial) p h
      exact Comparison.lookahead_related (heval _ trivial) (fun h _ => h) _ q out h

variable (g subject) in
/-- What a rule comes to at a position if it is run again, and what is reported on the way. -/
def Yields (r : RuleId) (p : Nat) (outcome : Outcome Found) (f : Failure) : Prop :=
  outcome.error? = none ∧ ∃ room active s,
    Task.rerun ⟨g, subject, .silent⟩ room active r p ⟨.empty, ⊥, ()⟩ = (outcome, s) ∧ s.furthest = f

variable {outcome outcome' : Outcome Found} {f f' : Failure}

theorem Yields.unique (h : Yields g subject r p outcome f) (h' : Yields g subject r p outcome' f') :
    outcome = outcome' ∧ f = f' := by
  obtain ⟨hnone, room, active, s, hrerun, rfl⟩ := h
  obtain ⟨hnone', room', active', s', hrerun', rfl⟩ := h'
  wlog hle : room ≤ room' generalizing outcome outcome' room room' active active' s s'
  · exact (this hnone' room' active' s' hrerun' hnone room active s hrerun
      (Nat.le_of_not_le hle)).imp
      Eq.symm Eq.symm
  have halike : (shift g subject ⊥ ⊥ active active').Alike ⟨.empty, ⊥, ()⟩ ⟨.empty, ⊥, ()⟩ :=
    ⟨⊥, (sup_idem ⊥).symm, (sup_idem ⊥).symm⟩
  have hholds := rerun_shifts (r := r) (p := p) hle halike
  rw [hrerun, hrerun'] at hholds
  rcases hholds with ⟨houtcome, -, more, hs, hs'⟩ | hlost
  · exact ⟨houtcome, hs.trans hs'.symm⟩
  · rw [hnone] at hlost
    contradiction

/-- A rule that is run again adds what it yields to what was reported before. -/
theorem exists_yields
    (hnone : (Task.rerun ⟨g, subject, .silent⟩ room active r p s).1.error? = none) :
    ∃ f, Yields g subject r p (Task.rerun ⟨g, subject, .silent⟩ room active r p s).1 f ∧
      (Task.rerun ⟨g, subject, .silent⟩ room active r p s).2.furthest = s.furthest ⊔ f := by
  have halike : (shift g subject s.furthest ⊥ active active).Alike s ⟨.empty, ⊥, ()⟩ :=
    ⟨⊥, (sup_bot_eq _).symm, (sup_idem ⊥).symm⟩
  rcases rerun_shifts (r := r) (p := p) (Nat.le_refl room) halike with
    ⟨houtcome, -, more, hs, ht⟩ | hlost
  · refine ⟨more, ⟨hnone, room, active, _, by rw [houtcome], ?_⟩, hs⟩
    rw [ht, bot_sup_eq]
  · rw [hnone] at hlost
    contradiction

theorem Yields.rerun_eq (h : Yields g subject r p outcome f)
    (hnone : (Task.rerun ⟨g, subject, .silent⟩ room active r p s).1.error? = none) :
    (Task.rerun ⟨g, subject, .silent⟩ room active r p s).1 = outcome ∧
      (Task.rerun ⟨g, subject, .silent⟩ room active r p s).2.furthest = s.furthest ⊔ f := by
  obtain ⟨f', hf', hfurthest⟩ := exists_yields hnone
  obtain ⟨houtcome, rfl⟩ := h.unique hf'
  exact ⟨houtcome.symm, hfurthest⟩

end Shift

section Room

variable {ω : Type} {g : Grammar} {input : Input} (hg : g.WellFormed) (observer : Observer ω)

/-- Answers are sound; nothing is asked of sessions. A limit that ends the evaluation does not
leave room for every rule at every position. -/
def soundly (input : Input) (depth : Nat) (active : List Call) :
    Contract (⟨g, .ofInput input, observer⟩ : Task ω) active where
  Inv _ := True
  Le _ _ := True
  answers _ := SoundAt hg.region input
  Abort _ := depth ≤ g.rules.size * (input.length + 1)
  refl _ := trivial
  trans _ _ := trivial
  mono _ h := h
  bounded _ r q f hq h := by
    rw [Subject.length_ofInput] at hq ⊢
    exact (h f rfl hq).1
  note _ _ := ⟨trivial, trivial⟩
  furthest _ _ := ⟨trivial, trivial⟩

variable {active : List Call} {r : RuleId} {p : Nat} (hR : hg.region.Satisfiable)
  (hrec : ∀ r, r ∉ g.reachOf r)

include hR hrec in
/-- Without left recursion a rule is never applied inside itself at its own position, so the
applications that are inside each other are different calls. -/
theorem rerun_meets {room depth : Nat} (hdepth : room + active.length = depth)
    (hmay : hg.region.May input.length active r p) (hnodup : active.Nodup)
    (hrange : ∀ c ∈ active, c.rule < g.rules.size ∧ c.position ≤ input.length) (s : Session ω) :
    Meets (fun _ => depth ≤ g.rules.size * (input.length + 1))
      (fun o _ => SoundAt hg.region input r p o)
      (Task.rerun ⟨g, .ofInput input, observer⟩ room active r p s) := by
  induction room generalizing active r p s with
  | zero =>
      -- all the room is taken by different calls, of which there are no more than this
      refine ⟨rfl, ?_⟩
      rw [← hdepth, Nat.zero_add]
      exact length_calls_le hnodup hrange
  | succ room ih =>
      have hfresh : ⟨r, p⟩ ∉ active := by
        intro hmem
        obtain ⟨-, hlt | ⟨-, hreach⟩⟩ := hmay.2.2 _ hmem hmay.1
        · exact Nat.lt_irrefl p hlt
        · exact hrec r hreach
      have hdepth' : room + (⟨r, p⟩ :: active : List Call).length = depth := by
        rw [List.length_cons]
        omega
      have hrange' : ∀ c ∈ (⟨r, p⟩ :: active : List Call),
          c.rule < g.rules.size ∧ c.position ≤ input.length :=
        List.forall_mem_cons.2 ⟨⟨hmay.1, hmay.2.1⟩, hrange⟩
      have hp : p ≤ (Subject.ofInput input).length := by
        rw [Subject.length_ofInput]
        exact hmay.2.1
      have happlied : ∀ s' r' q,
          BodyVisits g (.ofInput input) (SoundAt hg.region input) r p r' q →
            (soundly hg observer input depth (⟨r, p⟩ :: active)).Applied s' r' q
              (Task.rerun ⟨g, .ofInput input, observer⟩ room (⟨r, p⟩ :: active) r' q s') := by
        intro s' r' q hv
        have hmeets := ih hdepth' (hmay.visits hg hR (fun _ _ _ h => h) hv)
          (List.nodup_cons.2 ⟨hfresh, hnodup⟩) hrange' s'
        exact hmeets.imp fun _ _ hsound => ⟨trivial, trivial, hsound⟩
      have hbody := Contract.body_meets (c := soundly hg observer input depth (⟨r, p⟩ :: active))
        (s := s) hg rfl hmay.1 hp trivial fun s' r' q _ _ hv => happlied s' r' q hv
      exact hbody.imp fun _ _ h => h.2.2.sound hg hR fun _ _ _ hsound => hsound

include hR hrec in
theorem error?_rerun_roomy {start : RuleId} (hstart : start < g.rules.size) (s : Session ω) :
    (Task.rerun ⟨g, .ofInput input, observer⟩ (g.rules.size * (input.length + 1) + 1) [] start 0
      s).1.error? = none := by
  have hmay : hg.region.May input.length [] start 0 :=
    ⟨hstart, Nat.zero_le _, fun c hc => absurd hc List.not_mem_nil⟩
  have hdepth : g.rules.size * (input.length + 1) + 1 + ([] : List Call).length =
      g.rules.size * (input.length + 1) + 1 := rfl
  have hmeets := rerun_meets hg observer hR hrec hdepth hmay List.nodup_nil
    (fun c hc => absurd hc List.not_mem_nil) s
  exact hmeets.error? (Nat.not_succ_le_self _)

end Room

end Seedling
