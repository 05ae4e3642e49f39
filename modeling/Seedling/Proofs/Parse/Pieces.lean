import Seedling.Proofs.Parse.Steps

/-!
Evaluation piece by piece. Here a match has only the trees that are its own, a failure has none,
and no evaluation is told what has been put out before it: the trees of a sequence are those of
its items, the trees of a choice those of the alternative that was taken, the trees of a
repetition those of its matches, and a lookahead has no trees.

Evaluation onto given trees comes to the same: it puts the piece behind them.
-/

namespace Seedling

open Unlimited

/-- The splice of a piece is one of its trees. -/
def Piece.Marks (x : Piece) : Prop := ∀ i, x.splice = some i → i < x.trees.length

namespace Pieces

variable {ω : Type}

abbrev Eval (ω : Type) := AtomId → Nat → Session ω → Outcome Piece × Session ω

def sequence (eval : Eval ω) : List AtomId → Nat → Session ω → Outcome Piece × Session ω
  | [], pos, s => (.ok (.nothing pos), s)
  | a :: rest, pos, s =>
      proceed (fun x s => onMatch x.append (sequence eval rest x.stop s))
        (fun f s => (.backtrack f, s)) (eval a pos s)

def choice (task : Task ω) (eval : Eval ω) (active : List Call) (id : AtomId) (pos : Nat) :
    Nat → List AtomId → Failure → Session ω → Outcome Piece × Session ω
  | _, [], failure, s => (.backtrack failure, s)
  | index, a :: rest, failure, s =>
      proceed (fun x s => (.ok x, s.note task.observer active (.tried id index pos (some x.stop))))
        (fun f s => choice task eval active id pos (index + 1) rest (failure.combine f)
          (s.note task.observer active (.tried id index pos none)))
        (eval a pos (s.note task.observer active (.tries id index pos)))

def repetition (eval : Eval ω) (atom : AtomId) (min : Nat) (max : Option Nat) :
    Nat → Nat → Nat → Session ω → Outcome Piece × Session ω
  | 0, _, pos, s => (.ok (.nothing pos), s)
  | rounds + 1, count, pos, s =>
      if isFull max count then (.ok (.nothing pos), s)
      else
        proceed
          (fun x s =>
            if pos < x.stop then
              onMatch x.append (repetition eval atom min max rounds (count + 1) x.stop s)
            else (.ok x, s))
          (fun f s => if count < min then (.backtrack f, s) else (.ok (.nothing pos), s))
          (eval atom pos s)

def lookahead (eval : Eval ω) (atom : AtomId) (positive : Bool) (pos : Nat) (s : Session ω) :
    Outcome Piece × Session ω :=
  proceed
    (fun _ after =>
      (bif positive then .ok (.nothing pos) else .backtrack (.here pos),
        { after with furthest := s.furthest }))
    (fun f after =>
      bif positive then (.backtrack f, after)
      else (.ok (.nothing pos), { after with furthest := s.furthest }))
    (eval atom pos s)

def terminal (task : Task ω) (id : AtomId) (pos : Nat) (s : Session ω) :
    Outcome Piece × Session ω :=
  match task.subject.matchTerminal task.grammar id pos with
  | some (stop, leaf) => (.ok (.single stop leaf), s)
  | none =>
      let failure := Failure.expecting pos (task.grammar.label id)
      (.backtrack failure, s.fail failure)

def operator (task : Task ω) (apply : Apply ω) (eval : Eval ω) (active : List Call) (id : AtomId)
    (atom : Atom) (pos : Nat) (s : Session ω) : Outcome Piece × Session ω :=
  match atom with
  | .rule rule => onMatch (fun found => .single found.stop found.tree) (apply rule pos s)
  | .literal _ => terminal task id pos s
  | .pattern _ => terminal task id pos s
  | .token _ => terminal task id pos s
  | .sequence atoms => sequence eval atoms pos s
  | .choice atoms => choice task eval active id pos 0 atoms (.here pos) s
  | .repetition a min max => repetition eval a min max (task.subject.length - pos + 1) 0 pos s
  | .lookahead a positive => lookahead eval a positive pos s
  | .discard a => onMatch (fun x => .nothing x.stop) (eval a pos s)
  | .splice a => onMatch Piece.spliced (eval a pos s)

def eval (task : Task ω) (apply : Apply ω) (active : List Call) : Nat → Eval ω
  | 0, _, pos, s => (.backtrack (.here pos), s)
  | bound + 1, id, pos, s =>
      match task.grammar.atoms[id]? with
      | none => (.backtrack (.here pos), s)
      | some atom =>
          proceed (fun x s => (.ok x, s.note task.observer active (.atom id pos (some x.stop))))
            (fun f s => (.backtrack f, s.note task.observer active (.atom id pos none)))
            (operator task apply (eval task apply active bound) active id atom pos s)

/-! ### Splices -/

def Always {α : Type} (P : α → Prop) : Outcome α × Session ω → Prop
  | (.ok a, _) => P a
  | _ => True

theorem always_proceed {α β : Type} {P : α → Prop} {Q : β → Prop}
    {ok : α → Session ω → Outcome β × Session ω} {no : Failure → Session ω → Outcome β × Session ω}
    {result : Outcome α × Session ω} (h : Always P result) (hok : ∀ a s, P a → Always Q (ok a s))
    (hno : ∀ f s, Always Q (no f s)) : Always Q (proceed ok no result) := by
  obtain ⟨a | f | e, s⟩ := result
  · exact hok a s h
  · exact hno f s
  · trivial

theorem always_onMatch {α β : Type} {P : α → Prop} {Q : β → Prop} {k : α → β}
    {result : Outcome α × Session ω} (h : Always P result) (hk : ∀ a, P a → Q (k a)) :
    Always Q (onMatch k result) := by
  rw [onMatch_eq]
  exact always_proceed h (fun a _ ha => hk a ha) fun _ _ => trivial

theorem marks_nothing (pos : Nat) : (Piece.nothing pos).Marks := by
  intro i hi
  contradiction

theorem marks_single (stop : Nat) (tree : ParseTree) : (Piece.single stop tree).Marks := by
  intro i hi
  contradiction

theorem marks_append {x y : Piece} (hx : x.Marks) (hy : y.Marks) : (x.append y).Marks := by
  intro i hi
  rw [Piece.append, Option.or_eq_some_iff, Option.map_eq_some_iff] at hi
  simp only [Piece.append, List.length_append]
  rcases hi with ⟨j, hj, rfl⟩ | ⟨-, hi⟩
  · have := hy j hj
    omega
  · have := hx i hi
    omega

theorem marks_spliced {x : Piece} (hx : x.Marks) : x.spliced.Marks := by
  intro i hi
  by_cases hone : x.trees.length = 1
  · have hzero : some 0 = some i := by rwa [Piece.spliced, if_pos hone] at hi
    cases hzero
    exact hone ▸ Nat.one_pos
  · rw [Piece.spliced, if_neg hone] at hi
    exact hx i hi

section Marks

variable {task : Task ω} {eval : Eval ω}

theorem sequence_marks (heval : ∀ a p s, Always Piece.Marks (eval a p s)) (atoms : List AtomId)
    (p : Nat) (s : Session ω) : Always Piece.Marks (sequence eval atoms p s) := by
  induction atoms generalizing p s with
  | nil => exact marks_nothing p
  | cons a rest ih =>
      exact always_proceed (heval a p s)
        (fun x s hx => always_onMatch (ih x.stop s) fun _ hy => marks_append hx hy)
          fun _ _ => trivial

theorem choice_marks (heval : ∀ a p s, Always Piece.Marks (eval a p s)) (active : List Call)
    (id : AtomId) (p index : Nat) (atoms : List AtomId) (failure : Failure) (s : Session ω) :
    Always Piece.Marks (choice task eval active id p index atoms failure s) := by
  induction atoms generalizing index failure s with
  | nil => trivial
  | cons a rest ih => exact always_proceed (heval a p _) (fun _ _ hx => hx) fun f s => ih _ _ _

theorem repetition_marks (heval : ∀ a p s, Always Piece.Marks (eval a p s)) (a : AtomId) (min : Nat)
    (max : Option Nat) (rounds count p : Nat) (s : Session ω) :
    Always Piece.Marks (repetition eval a min max rounds count p s) := by
  induction rounds generalizing count p s with
  | zero => exact marks_nothing p
  | succ rounds ih =>
      rw [repetition]
      split
      · exact marks_nothing p
      refine always_proceed (heval a p s) (fun x s hx => ?_) fun f s => ?_
      · split
        · exact always_onMatch (ih _ _ _) fun _ hy => marks_append hx hy
        · exact hx
      · split
        · trivial
        · exact marks_nothing p

theorem lookahead_marks (eval : Eval ω) (a : AtomId) (positive : Bool) (p : Nat) (s : Session ω) :
    Always Piece.Marks (lookahead eval a positive p s) := by
  rw [lookahead]
  refine always_proceed (P := fun _ => True) ?_ (fun _ _ _ => ?_) fun _ _ => ?_
  · obtain ⟨_ | _ | _, _⟩ := eval a p s <;> trivial
  · cases positive
    · trivial
    · exact marks_nothing p
  · cases positive
    · exact marks_nothing p
    · trivial

theorem terminal_marks (id : AtomId) (p : Nat) (s : Session ω) :
    Always Piece.Marks (terminal task id p s) := by
  rw [terminal]
  split
  · exact marks_single _ _
  · trivial

theorem operator_marks (apply : Apply ω) (heval : ∀ a p s, Always Piece.Marks (eval a p s))
    (active : List Call) (id : AtomId) (atom : Atom) (p : Nat) (s : Session ω) :
    Always Piece.Marks (operator task apply eval active id atom p s) := by
  cases atom with
  | rule r =>
      refine always_onMatch (P := fun _ => True) ?_ fun found _ => marks_single _ _
      obtain ⟨_ | _ | _, _⟩ := apply r p s <;> trivial
  | literal | pattern | token => exact terminal_marks id p s
  | sequence atoms => exact sequence_marks heval atoms p s
  | choice atoms => exact choice_marks heval active id p 0 atoms _ s
  | repetition a min max => exact repetition_marks heval a min max _ 0 p s
  | lookahead a positive => exact lookahead_marks eval a positive p s
  | discard a => exact always_onMatch (heval a p s) fun x _ => marks_nothing x.stop
  | splice a => exact always_onMatch (heval a p s) fun _ hx => marks_spliced hx

/-- Every splice leads to a tree of its own match. -/
theorem eval_marks (task : Task ω) (apply : Apply ω) (active : List Call) (bound : Nat)
    (id : AtomId) (p : Nat) (s : Session ω) :
    Always Piece.Marks (Pieces.eval task apply active bound id p s) := by
  induction bound generalizing id p s with
  | zero => trivial
  | succ bound ih =>
      rw [Pieces.eval]
      split
      · trivial
      · exact always_proceed (operator_marks apply ih active id _ p s) (fun _ _ hx => hx)
          fun _ _ => trivial

end Marks

/-! ### Evaluation onto given trees -/

section Onto

variable {task : Task ω} {eval : Seedling.Eval ω} {pieces : Eval ω}

theorem onMatch_onMatch {α β γ : Type} (k : β → γ) (l : α → β) (result : Outcome α × Session ω) :
    onMatch k (onMatch l result) = onMatch (fun a => k (l a)) result := by
  obtain ⟨_ | _ | _, _⟩ := result <;> rfl

theorem onMatch_proceed {α β γ : Type} (k : β → γ) (ok : α → Session ω → Outcome β × Session ω)
    (no : Failure → Session ω → Outcome β × Session ω) (result : Outcome α × Session ω) :
    onMatch k (proceed ok no result) =
      proceed (fun a s => onMatch k (ok a s)) (fun f s => onMatch k (no f s)) result := by
  obtain ⟨_ | _ | _, _⟩ := result <;> rfl

theorem proceed_onMatch {α β γ : Type} (k : α → β) (ok : β → Session ω → Outcome γ × Session ω)
    (no : Failure → Session ω → Outcome γ × Session ω) (result : Outcome α × Session ω) :
    proceed ok no (onMatch k result) = proceed (fun a s => ok (k a) s) no result := by
  obtain ⟨_ | _ | _, _⟩ := result <;> rfl

/-- An atom puts its piece behind the trees that it is given. -/
def Laid (eval : Seedling.Eval ω) (pieces : Eval ω) : Prop :=
  ∀ a p out s, eval a p out s = onMatch (fun x => x.onto out none) (pieces a p s)

theorem onto_append (x : Piece) (out : Array ParseTree) (splice : Option Nat)
    (result : Outcome Piece × Session ω) :
    onMatch (fun y => y.onto (x.onto out none).out ((x.onto out none).splice.or splice)) result =
      onMatch (fun y => y.onto out splice) (onMatch x.append result) := by
  rw [onMatch_onMatch]
  congr
  funext y
  exact (x.append_onto y out splice).symm

theorem sequence_onto (h : Laid eval pieces) (atoms : List AtomId) (p : Nat) (out : Array ParseTree)
    (splice : Option Nat) (s : Session ω) :
    Task.sequence eval atoms p out splice s =
      onMatch (fun x => x.onto out splice) (sequence pieces atoms p s) := by
  induction atoms generalizing p out splice s with
  | nil => simp only [Task.sequence, sequence, onMatch, Piece.nothing_onto]
  | cons a rest ih =>
      rw [sequence_cons, h, proceed_onMatch, sequence, onMatch_proceed]
      congr
      funext x s
      rw [ih, ← onto_append]
      rfl

theorem choice_onto (h : Laid eval pieces) (active : List Call) (id : AtomId) (p : Nat)
    (out : Array ParseTree) (index : Nat) (atoms : List AtomId) (failure : Failure)
    (s : Session ω) :
    task.choice eval active id p out index atoms failure s =
      onMatch (fun x => x.onto out none)
        (choice task pieces active id p index atoms failure s) := by
  induction atoms generalizing index failure s with
  | nil => rfl
  | cons a rest ih =>
      rw [choice_cons, alternative_eq, h, proceed_onMatch, choice, onMatch_proceed]
      obtain ⟨x | f | e, s'⟩ := pieces a p (s.note task.observer active (.tries id index p))
      · rfl
      · exact ih _ _ _
      · rfl

theorem repetition_onto (h : Laid eval pieces) (a : AtomId) (min : Nat) (max : Option Nat)
    (rounds count p : Nat) (out : Array ParseTree) (splice : Option Nat) (s : Session ω) :
    Task.repetition eval a min max rounds count p out splice s =
      onMatch (fun x => x.onto out splice) (repetition pieces a min max rounds count p s) := by
  induction rounds generalizing count p out splice s with
  | zero => simp only [Task.repetition, repetition, onMatch, Piece.nothing_onto]
  | succ rounds ih =>
      rw [repetition]
      cases hfull : isFull max count with
      | true =>
          rw [Task.repetition, ← isFull, if_pos hfull, if_pos rfl, onMatch, Piece.nothing_onto]
      | false =>
          rw [repetition_succ eval a p out s min max rounds count splice hfull, h, proceed_onMatch,
            if_neg Bool.false_ne_true, onMatch_proceed]
          congr
          · funext x s
            change (if p < x.stop then _ else _) = _
            split
            · rw [ih, ← onto_append]
              rfl
            · exact congrArg (fun m => (Outcome.ok m, s)) (x.onto_or out splice)
          · funext f s
            split
            · rfl
            · rw [onMatch, Piece.nothing_onto]

theorem lookahead_onto (h : Laid eval pieces) (a : AtomId) (positive : Bool) (p : Nat)
    (out : Array ParseTree) (s : Session ω) :
    Task.lookahead eval a positive p out s =
      onMatch (fun x => x.onto out none) (lookahead pieces a positive p s) := by
  rw [lookahead_eq, h, proceed_onMatch, lookahead, onMatch_proceed]
  congr
  · funext _ after
    cases positive <;> simp [onMatch, Piece.nothing_onto]
  · funext f after
    cases positive <;> simp [onMatch, Piece.nothing_onto]

theorem terminal_onto (id : AtomId) (p : Nat) (out : Array ParseTree) (s : Session ω) :
    task.terminal id p out s = onMatch (fun x => x.onto out none) (terminal task id p s) := by
  rw [Task.terminal, terminal]
  cases task.subject.matchTerminal task.grammar id p with
  | none => rfl
  | some m => simp [onMatch, Piece.single, Piece.onto]

theorem operator_onto (apply : Apply ω) (h : Laid eval pieces) (active : List Call) (id : AtomId)
    (atom : Atom) (p : Nat) (out : Array ParseTree) (s : Session ω) :
    task.operator apply eval active id atom p out s =
      onMatch (fun x => x.onto out none) (operator task apply pieces active id atom p s) := by
  cases atom with
  | rule r =>
      rw [operator_rule, operator, onMatch_onMatch]
      rfl
  | literal | pattern | token => exact terminal_onto id p out s
  | sequence atoms => exact sequence_onto h atoms p out none s
  | choice atoms => exact choice_onto h active id p out 0 atoms _ s
  | repetition a min max => exact repetition_onto h a min max _ 0 p out none s
  | lookahead a positive => exact lookahead_onto h a positive p out s
  | discard a =>
      rw [operator_discard, h, operator, onMatch_onMatch, onMatch_onMatch]
      rfl
  | splice a =>
      rw [operator_splice, h, operator, onMatch_onMatch, onMatch_onMatch]
      congr
      funext x
      simp only [Piece.onto, Piece.spliced, Array.size_append, List.size_toArray,
        Nat.add_left_cancel_iff, Option.or_none]
      split <;> simp

/-- What has been put out before takes no part in an evaluation; a match puts its piece behind
it. -/
theorem eval_onto (task : Task ω) (apply : Apply ω) (active : List Call) (bound : Nat) :
    Laid (task.eval apply active bound) (Pieces.eval task apply active bound) := by
  induction bound with
  | zero =>
      intro a p out s
      rfl
  | succ bound ih =>
      intro a p out s
      rw [Task.eval, Pieces.eval]
      cases task.grammar.atoms[a]? with
      | none => rfl
      | some atom =>
          dsimp only
          rw [noteAtom_eq, operator_onto apply ih, proceed_onMatch, onMatch_proceed]
          rfl

end Onto

end Pieces

end Seedling
