import Seedling.Proofs.Parse.Steps

/-!
Two evaluations side by side, of one grammar on one input but with rules applied in two ways. As
long as they go the same way they come to the same outcome and their sessions stay alike. They
may lose each other when the first gives up, or for a reason that no step of the second undoes;
then nothing more is asked of what they come to.

What is to be shown of an application is left open; the evaluation of a body carries it from the
applications to the body.
-/

namespace Seedling

open Unlimited

def Outcome.error? {α : Type} : Outcome α → Option ParseError
  | .abort e => some e
  | _ => none

theorem Outcome.eq_abort_of_error? {α : Type} {outcome : Outcome α} {e : ParseError}
    (h : outcome.error? = some e) : outcome = .abort e := by
  cases outcome with
  | abort => exact congrArg _ (Option.some.inj h)
  | ok | backtrack => contradiction

theorem Meets.error? {α ω : Type} {abort : Prop} {P : Option α → Session ω → Prop}
    {result : Outcome α × Session ω} (h : Meets (fun _ => abort) P result) (habort : ¬ abort) :
    result.1.error? = none := by
  obtain ⟨outcome, s⟩ := result
  cases outcome with
  | ok | backtrack => rfl
  | abort e => exact absurd h.2 habort

/-- How two evaluations compare inside the applications `active` and `active'`. -/
structure Comparison {ω ω' : Type} (g : Grammar) (subject : Subject) (observer : Observer ω)
    (observer' : Observer ω') (active active' : List Call) where
  /-- The sessions of two evaluations that have gone the same way. -/
  Alike : Session ω → Session ω' → Prop
  /-- The two have lost each other, the first with an error if it was given up. -/
  Lost : Option ParseError → Session ω → Session ω' → Prop
  note : ∀ {s t} event, (∀ r p action, event ≠ .rule r p action) → Alike s t →
    Alike (s.note observer active event) (t.note observer' active' event)
  fail : ∀ {s t} f, Alike s t → Alike (s.fail f) (t.fail f)
  lost_first : ∀ {s t} e s', Lost none s t → Lost e s' t
  lost_second : ∀ {e s t t'}, Lost e s t → Task.Goes ⟨g, subject, observer'⟩ t t' → Lost e s t'

namespace Comparison

variable {ω ω' : Type} {g : Grammar} {subject : Subject} {observer : Observer ω}
  {observer' : Observer ω'} {active active' : List Call}
  (C : Comparison g subject observer observer' active active')

/-- What the two come to: the same, with sessions alike, unless they have lost each other. -/
def Holds {α : Type} (x : Outcome α × Session ω) (y : Outcome α × Session ω') : Prop :=
  (x.1 = y.1 ∧ x.1.error? = none ∧ C.Alike x.2 y.2) ∨ C.Lost x.1.error? x.2 y.2

def Related (eval : Eval ω) (eval' : Eval ω') (a : AtomId) : Prop :=
  ∀ p out s t, C.Alike s t → C.Holds (eval a p out s) (eval' a p out t)

/-- The steps of the second evaluation. -/
abbrev Goes (_ : Comparison g subject observer observer' active active') :
    Session ω' → Session ω' → Prop :=
  Task.Goes ⟨g, subject, observer'⟩

variable {C}

theorem holds_ok {α : Type} (a : α) {s : Session ω} {t : Session ω'} (h : C.Alike s t) :
    C.Holds (.ok a, s) (.ok a, t) :=
  .inl ⟨rfl, rfl, h⟩

theorem holds_backtrack {α : Type} (f : Failure) {s : Session ω} {t : Session ω'}
    (h : C.Alike s t) : C.Holds ((.backtrack f : Outcome α), s) (.backtrack f, t) :=
  .inl ⟨rfl, rfl, h⟩

/-- What goes on alike after what holds so far holds, in another comparison if need be. Where
the two have lost each other the second goes on by itself. -/
theorem Holds.proceed_into {D : Comparison g subject observer observer' active active'} {α β : Type}
    {x : Outcome α × Session ω} {y : Outcome α × Session ω'}
    {ok : α → Session ω → Outcome β × Session ω} {no : Failure → Session ω → Outcome β × Session ω}
    {ok' : α → Session ω' → Outcome β × Session ω'}
    {no' : Failure → Session ω' → Outcome β × Session ω'} (h : C.Holds x y)
    (hlost : ∀ {e s t}, C.Lost e s t → D.Lost e s t)
    (hok : ∀ a s t, y = (.ok a, t) → C.Alike s t → D.Holds (ok a s) (ok' a t))
    (hno : ∀ f s t, y = (.backtrack f, t) → C.Alike s t → D.Holds (no f s) (no' f t))
    (hok' : ∀ a t, C.Goes t (ok' a t).2) (hno' : ∀ f t, C.Goes t (no' f t).2) :
    D.Holds (proceed ok no x) (Seedling.proceed ok' no' y) := by
  obtain ⟨outcome, s⟩ := x
  obtain ⟨outcome', t⟩ := y
  rcases h with ⟨hsame, hnone, halike⟩ | h
  · obtain rfl : outcome = outcome' := hsame
    cases outcome with
    | ok a => exact hok a s t rfl halike
    | backtrack f => exact hno f s t rfl halike
    | abort e => contradiction
  · -- the first may go on too, but what is lost stays lost
    refine .inr (D.lost_second ?_ (proceed_steps .refl hok' hno'))
    cases outcome with
    | ok a => exact D.lost_first _ _ (hlost h)
    | backtrack f => exact D.lost_first _ _ (hlost h)
    | abort e => exact hlost h

theorem Holds.proceed {α β : Type} {x : Outcome α × Session ω} {y : Outcome α × Session ω'}
    {ok : α → Session ω → Outcome β × Session ω} {no : Failure → Session ω → Outcome β × Session ω}
    {ok' : α → Session ω' → Outcome β × Session ω'}
    {no' : Failure → Session ω' → Outcome β × Session ω'} (h : C.Holds x y)
    (hok : ∀ a s t, C.Alike s t → C.Holds (ok a s) (ok' a t))
    (hno : ∀ f s t, C.Alike s t → C.Holds (no f s) (no' f t))
    (hok' : ∀ a t, C.Goes t (ok' a t).2) (hno' : ∀ f t, C.Goes t (no' f t).2) :
    C.Holds (Seedling.proceed ok no x) (Seedling.proceed ok' no' y) :=
  h.proceed_into (fun hlost => hlost) (fun a s t _ => hok a s t)
    (fun f s t _ => hno f s t) hok' hno'

theorem Holds.onMatch {α β : Type} {x : Outcome α × Session ω} {y : Outcome α × Session ω'}
    (h : C.Holds x y) (k : α → β) : C.Holds (onMatch k x) (Unlimited.onMatch k y) := by
  rw [onMatch_eq, onMatch_eq]
  exact h.proceed (fun a _ _ => holds_ok (k a)) (fun f _ _ => holds_backtrack f) (fun _ _ => .refl)
    fun _ _ => .refl

section Operators

variable {eval : Eval ω} {eval' : Eval ω'} (hgoes : ∀ a p out t, C.Goes t (eval' a p out t).2)

include hgoes in
theorem sequence_related {atoms : List AtomId} (heval : ∀ a ∈ atoms, C.Related eval eval' a)
    (p : Nat) (out : Array ParseTree) (splice : Option Nat) {s : Session ω} {t : Session ω'}
    (h : C.Alike s t) :
    C.Holds (Task.sequence eval atoms p out splice s)
      (Task.sequence eval' atoms p out splice t) := by
  induction atoms generalizing p out splice s t with
  | nil => exact holds_ok _ h
  | cons a rest ih =>
      obtain ⟨ha, hrest⟩ := List.forall_mem_cons.1 heval
      rw [sequence_cons, sequence_cons]
      exact (ha p out s t h).proceed (fun m _ _ => ih hrest m.stop m.out _)
        (fun f _ _ => holds_backtrack f)
        (fun m t => sequence_steps (fun b _ => hgoes b) m.stop m.out _ t) fun _ _ => .refl

theorem alternative_related {a : AtomId} (heval : C.Related eval eval' a) (id : AtomId)
    (index p : Nat) (out : Array ParseTree) {s : Session ω} {t : Session ω'} (h : C.Alike s t) :
    C.Holds (Task.alternative ⟨g, subject, observer⟩ eval active id index a p out s)
      (Task.alternative ⟨g, subject, observer'⟩ eval' active' id index a p out t) := by
  rw [alternative_eq, alternative_eq]
  exact (heval p out _ _ (C.note (.tries id index p) nofun h)).proceed
    (fun m _ _ h => holds_ok m (C.note _ nofun h))
      (fun f _ _ h => holds_backtrack f (C.note _ nofun h))
    (fun _ t => note_steps t active' _ nofun) fun _ t => note_steps t active' _ nofun

include hgoes in
theorem choice_related {atoms : List AtomId} (heval : ∀ a ∈ atoms, C.Related eval eval' a)
    (id : AtomId) (p : Nat) (out : Array ParseTree) (index : Nat) (failure : Failure)
    {s : Session ω} {t : Session ω'} (h : C.Alike s t) :
    C.Holds (Task.choice ⟨g, subject, observer⟩ eval active id p out index atoms failure s)
      (Task.choice ⟨g, subject, observer'⟩ eval' active' id p out index atoms failure t) := by
  induction atoms generalizing index failure s t with
  | nil => exact holds_backtrack failure h
  | cons a rest ih =>
      obtain ⟨ha, hrest⟩ := List.forall_mem_cons.1 heval
      rw [choice_cons, choice_cons]
      exact (alternative_related ha id index p out h).proceed (fun m _ _ => holds_ok m)
        (fun f _ _ => ih hrest (index + 1) _) (fun _ _ => .refl) fun f t =>
          choice_steps (fun b _ => hgoes b) active' id p out (index + 1) _ t

include hgoes in
theorem repetition_related {a : AtomId} (heval : C.Related eval eval' a) (min : Nat)
    (max : Option Nat) (rounds count p : Nat) (out : Array ParseTree) (splice : Option Nat)
    {s : Session ω} {t : Session ω'} (h : C.Alike s t) :
    C.Holds (Task.repetition eval a min max rounds count p out splice s)
      (Task.repetition eval' a min max rounds count p out splice t) := by
  induction rounds generalizing count p out splice s t with
  | zero => exact holds_ok _ h
  | succ rounds ih =>
      cases hfull : isFull max count with
      | true =>
          rw [Task.repetition, Task.repetition, ← isFull, if_pos hfull, if_pos hfull]
          exact holds_ok _ h
      | false =>
          rw [repetition_succ eval a p out s min max rounds count splice hfull,
            repetition_succ eval' a p out t min max rounds count splice hfull]
          refine (heval p out s t h).proceed (fun m s t h => ?_) (fun f s t h => ?_) (fun m t => ?_)
            fun f t => ?_
          · split
            · exact ih (count + 1) m.stop m.out _ h
            · exact holds_ok _ h
          · split
            · exact holds_backtrack f h
            · exact holds_ok _ h
          · split
            · exact repetition_steps (hgoes a) min max rounds (count + 1) m.stop m.out _ t
            · exact .refl
          · split <;> exact .refl

/-- A lookahead, where sessions stay alike that forget what was expected on the way. -/
theorem lookahead_related {a : AtomId} (heval : C.Related eval eval' a)
    (hforget : ∀ {s t s' t'}, C.Alike s t → C.Alike s' t' →
      C.Alike { s' with furthest := s.furthest } { t' with furthest := t.furthest })
    (positive : Bool) (p : Nat) (out : Array ParseTree) {s : Session ω} {t : Session ω'}
    (h : C.Alike s t) :
    C.Holds (Task.lookahead eval a positive p out s) (Task.lookahead eval' a positive p out t) := by
  rw [lookahead_eq, lookahead_eq]
  refine (heval p #[] s t h).proceed (fun _ _ _ h' => ?_) (fun f _ _ h' => ?_)
    (fun _ _ => .single (.furthest _)) fun _ _ => ?_
  · cases positive
    · exact holds_backtrack _ (hforget h h')
    · exact holds_ok _ (hforget h h')
  · cases positive
    · exact holds_ok _ (hforget h h')
    · exact holds_backtrack f h'
  · cases positive
    · exact .single (.furthest _)
    · exact .refl

theorem terminal_related (id : AtomId) (p : Nat) (out : Array ParseTree) {s : Session ω}
    {t : Session ω'} (h : C.Alike s t) :
    C.Holds (Task.terminal ⟨g, subject, observer⟩ id p out s)
      (Task.terminal ⟨g, subject, observer'⟩ id p out t) := by
  rw [Task.terminal, Task.terminal]
  dsimp only
  split
  · exact holds_ok _ h
  · exact holds_backtrack _ (C.fail _ h)

include hgoes in
theorem operator_related {apply : Apply ω} {apply' : Apply ω'} {atom : Atom}
    (happly : ∀ r, atom = .rule r → ∀ p s t, C.Alike s t → C.Holds (apply r p s) (apply' r p t))
    (hlook : ∀ a positive, atom = .lookahead a positive → ∀ p out s t, C.Alike s t →
      C.Holds (Task.lookahead eval a positive p out s) (Task.lookahead eval' a positive p out t))
    (heval : (∀ a positive, atom ≠ .lookahead a positive) →
      ∀ a ∈ atom.children, C.Related eval eval' a)
    (id : AtomId) (p : Nat) (out : Array ParseTree) {s : Session ω} {t : Session ω'}
    (h : C.Alike s t) :
    C.Holds (Task.operator ⟨g, subject, observer⟩ apply eval active id atom p out s)
      (Task.operator ⟨g, subject, observer'⟩ apply' eval' active' id atom p out t) := by
  cases atom with
  | rule r =>
      rw [operator_rule, operator_rule]
      exact (happly r rfl p s t h).onMatch _
  | literal | pattern | token => exact terminal_related id p out h
  | sequence atoms => exact sequence_related hgoes (heval nofun) p out none h
  | choice atoms => exact choice_related hgoes (heval nofun) id p out 0 _ h
  | repetition a min max =>
      exact repetition_related hgoes (heval nofun a List.mem_cons_self) min max _ 0 p out none h
  | lookahead a positive => exact hlook a positive rfl p out s t h
  | discard a =>
      rw [operator_discard, operator_discard]
      exact (heval nofun a List.mem_cons_self p #[] s t h).onMatch _
  | splice a =>
      rw [operator_splice, operator_splice]
      exact (heval nofun a List.mem_cons_self p out s t h).onMatch _

end Operators

section Evaluation

variable {apply : Apply ω} {apply' : Apply ω'} (hgoes : ∀ r p t, C.Goes t (apply' r p t).2)
  {Has : AtomId → Prop}
  (hchild : ∀ {id atom}, Has id → g.atoms[id]? = some atom →
    (∀ a positive, atom ≠ .lookahead a positive) → ∀ c ∈ atom.children, Has c)
  (hcall : ∀ {id r}, Has id → g.atoms[id]? = some (.rule r) → ∀ p s t, C.Alike s t →
    C.Holds (apply r p s) (apply' r p t))
  (hlook : ∀ {id a positive} bound, Has id → g.atoms[id]? = some (.lookahead a positive) →
    (∀ c, Has c → C.Related (Task.eval ⟨g, subject, observer⟩ apply active bound)
      (Task.eval ⟨g, subject, observer'⟩ apply' active' bound) c) →
    ∀ p out s t, C.Alike s t →
      C.Holds
        (Task.lookahead (Task.eval ⟨g, subject, observer⟩ apply active bound) a positive p out s)
        (Task.lookahead (Task.eval ⟨g, subject, observer'⟩ apply' active' bound) a positive p out
          t))

include hgoes hchild hcall hlook in
/-- Atoms are evaluated the same way if the rules that they call are applied the same way. What
holds of lookaheads is left open, for they forget. -/
theorem eval_related (bound : Nat) {id : AtomId} (hid : Has id) :
    C.Related (Task.eval ⟨g, subject, observer⟩ apply active bound)
      (Task.eval ⟨g, subject, observer'⟩ apply' active' bound) id := by
  induction bound generalizing id with
  | zero => exact fun p _ s t h => holds_backtrack (.here p) h
  | succ bound ih =>
      intro p out s t h
      rw [Task.eval, Task.eval]
      dsimp only
      split
      · exact holds_backtrack (.here p) h
      · rename_i atom hatom
        have hoperator := operator_related (Task.eval_goes _ hgoes active' bound)
          (fun r hr => hcall hid (hr ▸ hatom))
          (fun a positive ha => hlook bound hid (ha ▸ hatom) fun c => ih)
          (fun hplain a ha => ih (hchild hid hatom hplain a ha)) id p out h
        rw [noteAtom_eq, noteAtom_eq]
        exact hoperator.proceed (fun m _ _ h => holds_ok m (C.note _ (by simp) h))
          (fun f _ _ h => holds_backtrack f (C.note _ (by simp) h))
          (fun _ t => note_steps t active' _ (by simp)) fun _ t => note_steps t active' _ (by simp)

include hgoes hchild hcall hlook in
theorem body_related {r : RuleId} (hbody : ∀ rule, g.rules[r]? = some rule → Has rule.body)
    (p : Nat) {s : Session ω} {t : Session ω'} (h : C.Alike s t) :
    C.Holds (Task.body ⟨g, subject, observer⟩ apply active r p s)
      (Task.body ⟨g, subject, observer'⟩ apply' active' r p t) := by
  cases hrule : g.rules[r]? with
  | none =>
      rw [Task.body, Task.body]
      dsimp only
      rw [hrule]
      exact holds_backtrack (.here p) h
  | some rule =>
      rw [body_eq _ apply active p s hrule, body_eq _ apply' active' p t hrule]
      exact (eval_related hgoes hchild hcall hlook _ (hbody rule hrule) p #[] s t h).onMatch _

end Evaluation

end Comparison

end Seedling
