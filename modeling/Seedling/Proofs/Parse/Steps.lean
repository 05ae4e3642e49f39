import Mathlib.Logic.Relation
import Seedling.Proofs.Parse.Unlimited

/-!
What a parse does to its session, one step at a time. Whatever is evaluated, and however it
ends, the session goes through steps of a few kinds, each with its occasion: a rule is entered
where it has no entry, met again where its entry is open, and its seed is planted only where it
was growing already. What every step keeps, every evaluation keeps.

The rules that are touched are those of a region, if what is evaluated is of that region.
-/

namespace Seedling

open Unlimited

def Region.univ (g : Grammar) : Region g where
  rules _ := True
  atoms _ := True
  body _ _ := trivial
  child _ _ _ _ := trivial
  call _ _ := trivial

/-- One step of a parse that touches only some rules. -/
inductive Step {ω : Type} (task : Task ω) (rules : RuleId → Prop) :
    Session ω → Session ω → Prop where
  /-- Something else than an action on a rule is told. -/
  | told {s active event} : (∀ r p action, event ≠ .rule r p action) →
      Step task rules s (s.note task.observer active event)
  | furthest {s} (f : Failure) : Step task rules s { s with furthest := f }
  | lookup {s} (r : RuleId) (p : Nat) :
      Step task rules s { s with memo := (s.memo.lookup p r).2 }
  | replayed {s active r p e} : rules r → s.memo.get? p r = some e → e.isFinal = true →
      Step task rules s (s.note task.observer active (.rule r p .replayed))
  | reentered {s active r p e} : rules r → s.memo.get? p r = some e → e.isFinal = false →
      Step task rules s ((s.reenter active r p).note task.observer active (.rule r p .reentered))
  | entered {s r p} (active : List Call) : rules r → s.memo.get? p r = none →
      Step task rules s (task.entered active r p s)
  | settled {s active r p e entry action} : rules r → s.memo.get? p r = some e → entry.Settled →
      action = .failed ∨ (∃ stop, action = .matched stop) →
      Step task rules s (task.put active r p entry action s)
  | grown {s s' active r p e found} : rules r → s.memo.get? p r = some e → e.isGrowing = true →
      task.plant active r p e found s = .again s' → Step task rules s s'

abbrev Steps {ω : Type} (task : Task ω) (rules : RuleId → Prop) : Session ω → Session ω → Prop :=
  Relation.ReflTransGen (Step task rules)

abbrev Task.Goes {ω : Type} (task : Task ω) : Session ω → Session ω → Prop :=
  Steps task fun _ => True

@[simp] theorem Session.log_reenter {ω : Type} (s : Session ω) (active : List Call)
    (r : RuleId) (p : Nat) : (s.reenter active r p).log = s.log := by
  rw [Session.reenter]
  split <;> rfl

/-- A step tells one thing at most. -/
theorem Step.log_eq {ω : Type} {task : Task ω} {rules : RuleId → Prop} {s s' : Session ω}
    (h : Step task rules s s') : s'.log = s.log ∨
      ∃ active memo event, s'.log = task.observer.note active memo event s.log := by
  cases h with
  | furthest | lookup => exact .inl rfl
  | told | replayed | entered | settled => exact .inr ⟨_, _, _, rfl⟩
  | @reentered active r p =>
      refine .inr ⟨active, (s.reenter active r p).memo, .rule r p .reentered, ?_⟩
      rw [Session.note, Session.log_reenter]
  | grown _ _ _ hplant =>
      cases hplant
      exact .inr ⟨_, _, _, rfl⟩

deriving instance DecidableEq for Event

/-- Something that an observer was told, with what it could see. -/
structure Sight where
  active : List Call
  memo : MemoTable
  event : Event

/-- Writes down everything there is to see, the newest first. -/
def Observer.sights : Observer (List Sight) where
  note active memo event log := ⟨active, memo, event⟩ :: log

theorem Steps.suffix {g : Grammar} {subject : Subject} {rules : RuleId → Prop}
    {s s' : Session (List Sight)} (h : Steps ⟨g, subject, .sights⟩ rules s s') :
    s.log <:+ s'.log := by
  induction h with
  | refl => exact List.suffix_rfl
  | tail _ hstep ih =>
      rcases hstep.log_eq with hlog | ⟨active, memo, event, hlog⟩
      · rwa [hlog]
      · rw [hlog]
        exact ih.trans (List.suffix_cons _ _)

/-- Goes on after a match or after a failure; what was given up stays given up. -/
def proceed {α β ω : Type} (ok : α → Session ω → Outcome β × Session ω)
    (no : Failure → Session ω → Outcome β × Session ω) :
    Outcome α × Session ω → Outcome β × Session ω
  | (.ok a, s) => ok a s
  | (.backtrack f, s) => no f s
  | (.abort e, s) => (.abort e, s)

section Equations

variable {ω : Type} (task : Task ω) (apply : Apply ω) (eval : Eval ω) (active : List Call)
  (id a : AtomId) (p : Nat) (out : Array ParseTree) (s : Session ω)

theorem onMatch_eq {α β : Type} (k : α → β) (result : Outcome α × Session ω) :
    onMatch k result =
      proceed (fun a s => (.ok (k a), s)) (fun f s => (.backtrack f, s)) result := by
  obtain ⟨_ | _ | _, _⟩ := result <;> rfl

theorem sequence_cons (rest : List AtomId) (splice : Option Nat) :
    Task.sequence eval (a :: rest) p out splice s =
      proceed (fun m => Task.sequence eval rest m.stop m.out (m.splice.or splice))
        (fun f s => (.backtrack f, s)) (eval a p out s) := by
  rw [Task.sequence]
  obtain ⟨_ | _ | _, _⟩ := eval a p out s <;> rfl

theorem alternative_eq (index : Nat) :
    task.alternative eval active id index a p out s =
      proceed (fun m s => (.ok m, s.note task.observer active (.tried id index p (some m.stop))))
        (fun f s => (.backtrack f, s.note task.observer active (.tried id index p none)))
        (eval a p out (s.note task.observer active (.tries id index p))) := by
  rw [Task.alternative]
  obtain ⟨_ | _ | _, _⟩ := eval a p out (s.note task.observer active (.tries id index p)) <;> rfl

theorem choice_cons (index : Nat) (rest : List AtomId) (failure : Failure) :
    task.choice eval active id p out index (a :: rest) failure s =
      proceed (fun m s => (.ok m, s))
        (fun f => task.choice eval active id p out (index + 1) rest (failure.combine f))
        (task.alternative eval active id index a p out s) := by
  rw [Task.choice]
  obtain ⟨_ | _ | _, _⟩ := task.alternative eval active id index a p out s <;> rfl

theorem repetition_succ (min : Nat) (max : Option Nat) (rounds count : Nat)
    (splice : Option Nat) (hfull : isFull max count = false) :
    Task.repetition eval a min max (rounds + 1) count p out splice s =
      proceed
        (fun m s =>
          if p < m.stop then
            Task.repetition eval a min max rounds (count + 1) m.stop m.out (m.splice.or splice) s
          else (.ok { m with splice := m.splice.or splice }, s))
        (fun f s => if count < min then (.backtrack f, s) else (.ok ⟨p, out, splice⟩, s))
        (eval a p out s) := by
  rw [Task.repetition, ← isFull, hfull, if_neg Bool.false_ne_true]
  obtain ⟨_ | _ | _, _⟩ := eval a p out s <;> rfl

theorem lookahead_eq (positive : Bool) :
    Task.lookahead eval a positive p out s =
      proceed
        (fun _ after =>
          (bif positive then .ok ⟨p, out, none⟩ else .backtrack (.here p),
            { after with furthest := s.furthest }))
        (fun f after =>
          bif positive then (.backtrack f, after)
          else (.ok ⟨p, out, none⟩, { after with furthest := s.furthest }))
        (eval a p #[] s) := by
  unfold Task.lookahead
  obtain ⟨_ | _ | _, _⟩ := eval a p #[] s <;> cases positive <;> rfl

theorem noteAtom_eq (result : Outcome Matched × Session ω) :
    task.noteAtom active id p result =
      proceed (fun m s => (.ok m, s.note task.observer active (.atom id p (some m.stop))))
        (fun f s => (.backtrack f, s.note task.observer active (.atom id p none))) result := by
  obtain ⟨_ | _ | _, _⟩ := result <;> rfl

end Equations

/-! ### Evaluation -/

section Evaluation

variable {ω : Type} {task : Task ω} {rules : RuleId → Prop}

theorem proceed_steps {α β : Type} {ok : α → Session ω → Outcome β × Session ω}
    {no : Failure → Session ω → Outcome β × Session ω} {result : Outcome α × Session ω}
    {s : Session ω} (hresult : Steps task rules s result.2)
    (hok : ∀ a s, Steps task rules s (ok a s).2) (hno : ∀ f s, Steps task rules s (no f s).2) :
    Steps task rules s (proceed ok no result).2 := by
  obtain ⟨a | f | e, s'⟩ := result
  · exact hresult.trans (hok a s')
  · exact hresult.trans (hno f s')
  · exact hresult

theorem note_steps (s : Session ω) (active : List Call) (event : Event)
    (hevent : ∀ r p action, event ≠ .rule r p action) :
    Steps task rules s (s.note task.observer active event) :=
  .single (.told hevent)

theorem onMatch_steps {α β : Type} (k : α → β) {result : Outcome α × Session ω} {s : Session ω}
    (h : Steps task rules s result.2) : Steps task rules s (onMatch k result).2 := by
  rw [onMatch_eq]
  exact proceed_steps h (fun _ _ => .refl) fun _ _ => .refl

variable {eval : Eval ω}

theorem sequence_steps {atoms : List AtomId}
    (heval : ∀ a ∈ atoms, ∀ p out s, Steps task rules s (eval a p out s).2) (p : Nat)
    (out : Array ParseTree) (splice : Option Nat) (s : Session ω) :
    Steps task rules s (Task.sequence eval atoms p out splice s).2 := by
  induction atoms generalizing p out splice s with
  | nil => exact .refl
  | cons a rest ih =>
      obtain ⟨ha, hrest⟩ := List.forall_mem_cons.1 heval
      rw [sequence_cons]
      exact proceed_steps (ha p out s) (fun m s => ih hrest m.stop m.out _ s) fun _ _ => .refl

theorem alternative_steps {a : AtomId} (heval : ∀ p out s, Steps task rules s (eval a p out s).2)
    (active : List Call) (id : AtomId) (index p : Nat) (out : Array ParseTree) (s : Session ω) :
    Steps task rules s (task.alternative eval active id index a p out s).2 := by
  rw [alternative_eq]
  exact proceed_steps ((note_steps s active (.tries id index p) nofun).trans (heval p out _))
    (fun _ s => note_steps s active _ nofun) fun _ s => note_steps s active _ nofun

theorem choice_steps {atoms : List AtomId}
    (heval : ∀ a ∈ atoms, ∀ p out s, Steps task rules s (eval a p out s).2) (active : List Call)
    (id : AtomId) (p : Nat) (out : Array ParseTree) (index : Nat) (failure : Failure)
    (s : Session ω) :
    Steps task rules s (task.choice eval active id p out index atoms failure s).2 := by
  induction atoms generalizing index failure s with
  | nil => exact .refl
  | cons a rest ih =>
      obtain ⟨ha, hrest⟩ := List.forall_mem_cons.1 heval
      rw [choice_cons]
      exact proceed_steps (alternative_steps ha active id index p out s) (fun _ _ => .refl)
        fun f s => ih hrest (index + 1) _ s

theorem repetition_steps {a : AtomId} (heval : ∀ p out s, Steps task rules s (eval a p out s).2)
    (min : Nat) (max : Option Nat) (rounds count p : Nat) (out : Array ParseTree)
    (splice : Option Nat) (s : Session ω) :
    Steps task rules s (Task.repetition eval a min max rounds count p out splice s).2 := by
  induction rounds generalizing count p out splice s with
  | zero => exact .refl
  | succ rounds ih =>
      cases hfull : isFull max count with
      | true =>
          rw [Task.repetition, ← isFull, if_pos hfull]
      | false =>
          rw [repetition_succ eval a p out s min max rounds count splice hfull]
          refine proceed_steps (heval p out s) (fun m s => ?_) fun f s => ?_
          · split
            · exact ih (count + 1) m.stop m.out _ s
            · exact .refl
          · split <;> exact .refl

theorem lookahead_steps {a : AtomId} (heval : ∀ p out s, Steps task rules s (eval a p out s).2)
    (positive : Bool) (p : Nat) (out : Array ParseTree) (s : Session ω) :
    Steps task rules s (Task.lookahead eval a positive p out s).2 := by
  rw [lookahead_eq]
  refine proceed_steps (heval p #[] s) (fun _ _ => .single (.furthest _)) fun f after => ?_
  cases positive
  · exact .single (.furthest _)
  · exact .refl

theorem terminal_steps (id : AtomId) (p : Nat) (out : Array ParseTree) (s : Session ω) :
    Steps task rules s (task.terminal id p out s).2 := by
  rw [Task.terminal]
  split
  · exact .refl
  · exact .single (.furthest _)

theorem operator_steps {apply : Apply ω} {atom : Atom}
    (happly : ∀ r, atom = .rule r → ∀ p s, Steps task rules s (apply r p s).2)
    (heval : ∀ a ∈ atom.children, ∀ p out s, Steps task rules s (eval a p out s).2)
    (active : List Call) (id : AtomId) (p : Nat) (out : Array ParseTree) (s : Session ω) :
    Steps task rules s (task.operator apply eval active id atom p out s).2 := by
  cases atom with
  | rule r =>
      rw [operator_rule]
      exact onMatch_steps _ (happly r rfl p s)
  | literal | pattern | token => exact terminal_steps id p out s
  | sequence atoms => exact sequence_steps heval p out none s
  | choice atoms => exact choice_steps heval active id p out 0 _ s
  | repetition a min max =>
      exact repetition_steps (heval a List.mem_cons_self) min max _ 0 p out none s
  | lookahead a positive => exact lookahead_steps (heval a List.mem_cons_self) positive p out s
  | discard a =>
      rw [operator_discard]
      exact onMatch_steps _ (heval a List.mem_cons_self p #[] s)
  | splice a =>
      rw [operator_splice]
      exact onMatch_steps _ (heval a List.mem_cons_self p out s)

variable {R : Region task.grammar} {apply : Apply ω}
  (happly : ∀ r, R.rules r → ∀ p s, Steps task R.rules s (apply r p s).2)

include happly in
theorem eval_steps (active : List Call) (bound : Nat) {id : AtomId} (hid : R.atoms id) (p : Nat)
    (out : Array ParseTree) (s : Session ω) :
    Steps task R.rules s (task.eval apply active bound id p out s).2 := by
  induction bound generalizing id p out s with
  | zero => exact .refl
  | succ bound ih =>
      rw [Task.eval]
      split
      · exact .refl
      · rename_i atom hatom
        rw [noteAtom_eq]
        refine proceed_steps (operator_steps (fun r hr => ?_)
          (fun a ha => ih (R.child hid hatom a ha))
          active id p out s) (fun _ s => note_steps s active _ (by simp)) fun _ s =>
            note_steps s active _ (by simp)
        exact happly r (R.call hid (hr ▸ hatom))

include happly in
theorem body_steps (active : List Call) {r : RuleId} (hr : R.rules r) (p : Nat) (s : Session ω) :
    Steps task R.rules s (task.body apply active r p s).2 := by
  cases hrule : task.grammar.rules[r]? with
  | none =>
      rw [Task.body, hrule]
  | some rule =>
      rw [body_eq task apply active p s hrule]
      exact onMatch_steps _ (eval_steps happly active _ (R.body hr hrule) p #[] s)

theorem Task.eval_goes (task : Task ω) {apply : Apply ω}
    (happly : ∀ r p s, task.Goes s (apply r p s).2) (active : List Call) (bound : Nat) (id : AtomId)
    (p : Nat) (out : Array ParseTree) (s : Session ω) :
    task.Goes s (task.eval apply active bound id p out s).2 :=
  @eval_steps ω task (.univ task.grammar) apply (fun r _ => happly r) active bound id
    trivial p out s

theorem Task.body_goes (task : Task ω) {apply : Apply ω}
    (happly : ∀ r p s, task.Goes s (apply r p s).2) (active : List Call) (r : RuleId) (p : Nat)
    (s : Session ω) : task.Goes s (task.body apply active r p s).2 :=
  @body_steps ω task (.univ task.grammar) apply (fun r _ => happly r) active r trivial p s

end Evaluation

/-! ### Application -/

section Application

variable {ω : Type} {task : Task ω} {rules : RuleId → Prop} {active : List Call} {r : RuleId}

theorem replay_steps (hr : rules r) {p : Nat} {e : Entry} {s : Session ω}
    (he : s.memo.get? p r = some e) : Steps task rules s (task.replay active r p e s).2 := by
  rw [Task.replay]
  split
  · rename_i hstate
    exact .single (.replayed hr he (by simp [Entry.isFinal, hstate]))
  · rename_i hstate
    exact .single (.replayed hr he (by simp [Entry.isFinal, hstate]))
  · rename_i hmatched hfailed
    exact .single (.reentered hr he (by simpa [Entry.isFinal] using ⟨hmatched, hfailed⟩))

def Task.Round.session : Task.Round ω → Session ω
  | .done _ s => s
  | .again s => s

theorem accept_steps (hr : rules r) {p : Nat} {e : Entry} {s : Session ω}
    (he : s.memo.get? p r = some e) (found : Found) :
    Steps task rules s (task.accept active r p e found s).session :=
  .single (.settled hr he (.inl ⟨rfl, rfl⟩) (.inr ⟨found.stop, rfl⟩))

@[simp] theorem settle_abort (task : Task ω) (active : List Call) (r : RuleId) (p : Nat)
    (e : ParseError)
    (s : Session ω) : task.settle active r p (.abort e, s) = .done (.abort e) s := by
  unfold Task.settle
  dsimp only
  cases s.memo.get? p r <;> rfl

theorem settle_steps (active : List Call) (hr : rules r) (p : Nat) (attempt : Outcome Found)
    (s : Session ω) :
    Steps task rules s (task.settle active r p (attempt, s)).session := by
  unfold Task.settle
  dsimp only
  split
  · exact .refl
  · exact .refl
  · rename_i e f he
    split
    · exact accept_steps hr he _
    · rename_i hfound
      exact .single (.settled hr he (.inr ⟨rfl, hfound, rfl⟩) (.inl rfl))
  · rename_i e found he
    split
    · rename_i hgrowing
      have hplant : Steps task rules s (task.plant active r p e found s).session :=
        .single (.grown hr he hgrowing rfl)
      split
      · split
        · exact accept_steps hr he _
        · exact hplant
      · exact hplant
    · exact accept_steps hr he found

theorem grow_succ_steps (hr : rules r) (p : Nat) {body : Session ω → Outcome Found × Session ω}
    {rounds : Nat} (hrest : ∀ s, Steps task rules s (task.grow active r p body rounds s).2)
    (s : Session ω) :
    Steps task rules (body s).2 (task.grow active r p body (rounds + 1) s).2 := by
  have hround := @settle_steps ω task rules r active hr p (body s).1 (body s).2
  rw [Task.grow]
  cases hsettle : task.settle active r p (body s) with
  | done outcome s' =>
      rw [hsettle] at hround
      exact hround
  | again s' =>
      rw [hsettle] at hround
      exact hround.trans (hrest s')

theorem grow_steps (hr : rules r) (p : Nat) {body : Session ω → Outcome Found × Session ω}
    (hbody : ∀ s, Steps task rules s (body s).2) (rounds : Nat) (s : Session ω) :
    Steps task rules s (task.grow active r p body rounds s).2 := by
  induction rounds generalizing s with
  | zero => exact .refl
  | succ rounds ih => exact (hbody s).trans (grow_succ_steps hr p ih s)

/-- The application of a rule of a region takes the session through steps that touch only rules
of the region. -/
theorem apply_steps (R : Region task.grammar) (room : Nat) (active : List Call) {r : RuleId}
    (hr : R.rules r) (p : Nat) (s : Session ω) :
    Steps task R.rules s (task.apply room active r p s).2 := by
  induction room generalizing active r p s with
  | zero => exact .refl
  | succ room ih =>
      rw [Task.apply_succ]
      refine .head (.lookup r p) ?_
      cases he : s.memo.get? p r with
      | some e => exact replay_steps hr ((s.memo.get?_lookup p r p r).trans he)
      | none =>
          refine .head (.entered active hr ((s.memo.get?_lookup p r p r).trans he)) ?_
          exact grow_steps hr p
            (body_steps (fun r' hr' => ih (⟨r, p⟩ :: active) hr') (⟨r, p⟩ :: active) hr p) _ _

theorem Task.apply_goes (task : Task ω) (room : Nat) (active : List Call) (r : RuleId) (p : Nat)
    (s : Session ω) : task.Goes s (task.apply room active r p s).2 :=
  apply_steps (.univ task.grammar) room active trivial p s

end Application

end Seedling
