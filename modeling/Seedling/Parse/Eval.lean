import Seedling.Parse.Input
import Seedling.Parse.Memo
import Seedling.Parse.Trace

/-!
Evaluation of parsing expressions, with a memo table and with left recursion.

A rule is applied at a position. If the memo table has settled the rule there, its entry answers. If
the rule is met while it is being evaluated there, it answers with what it has so far, its seed,
which is nothing at first. A rule that has met itself this way is evaluated again as long as its
seed grows; before each round, the entries that depend on the old seed are dropped.

Recursion is in three layers, each a function of the one below it: an operator is evaluated
given the evaluation of its operands, an atom by its number, since operands have smaller
numbers, and a rule by the number of applications that may still be nested. That last number is
the depth limit; running out of it ends the parse.

Everything that happens is shown to an observer, whose log takes no part in it.
-/

namespace Seedling

structure Call where
  rule : RuleId
  position : Nat
deriving DecidableEq

/-- What an observer is told. `stop` says how far a match went, `none` that there was none. -/
inductive Event where
  | rule (rule : RuleId) (position : Nat) (action : Action)
  /-- An alternative of a choice is about to be evaluated. -/
  | tries (choice : AtomId) (index position : Nat)
  /-- An alternative of a choice was evaluated. -/
  | tried (choice : AtomId) (index position : Nat) (stop : Option Nat)
  /-- An atom was evaluated. -/
  | atom (id : AtomId) (position : Nat) (stop : Option Nat)

/-- An observer sees each event with the applications in progress and the memo table. A rule is in
progress once it has been entered, and no longer when its match or failure is told. -/
structure Observer (ω : Type) where
  note : List Call → MemoTable → Event → ω → ω

/-- The state of a parse: the memo table, the furthest failure of a terminal, and the log. -/
structure Session (ω : Type) where
  memo : MemoTable
  furthest : Failure
  log : ω

inductive Outcome (α : Type) where
  | ok (a : α)
  /-- No match; another alternative may be tried. -/
  | backtrack (f : Failure)
  /-- The whole parse ends. -/
  | abort (e : ParseError)

/-- A match of an atom: where it stops, the trees so far with its own at the end, and which of
them, if any, takes the place of the rule's node. -/
structure Matched where
  stop : Nat
  out : Array ParseTree
  splice : Option Nat

/-- What stays the same during a parse. -/
structure Task (ω : Type) where
  grammar : Grammar
  subject : Subject
  observer : Observer ω

abbrev Eval (ω : Type) := AtomId → Nat → Array ParseTree → Session ω → Outcome Matched × Session ω

abbrev Apply (ω : Type) := RuleId → Nat → Session ω → Outcome Found × Session ω

namespace Session

variable {ω : Type}

def note (s : Session ω) (observer : Observer ω) (active : List Call) (event : Event) : Session ω :=
  { s with log := observer.note active s.memo event s.log }

def fail (s : Session ω) (f : Failure) : Session ω :=
  { s with furthest := s.furthest.combine f }

/-- The rule is met again: its entry is marked, and the rules that were applied at the same position
since then depend on it. -/
def reenter (s : Session ω) (active : List Call) (rule : RuleId) (pos : Nat) : Session ω :=
  let memo := s.memo.update pos rule fun entry => { entry with state := .reentered }
  if ⟨rule, pos⟩ ∈ active then
    let between := (active.takeWhile (· ≠ ⟨rule, pos⟩)).reverse
    let rules := (between.filter fun c => c.position = pos && c.rule ≠ rule).map Call.rule
    { s with memo := memo.update pos rule fun entry => entry.addDependents rules }
  else { s with memo }

/-- A rule starts at a position where others are growing: its entry depends on all of them. -/
def enlist (s : Session ω) (active : List Call) (rule : RuleId) (pos : Nat) : Session ω :=
  let heads := active.takeWhile fun c => c.position = pos
  { s with
    memo := heads.foldl
      (fun memo c => memo.update pos c.rule fun entry =>
        if entry.isGrowing && c.rule ≠ rule then entry.addDependents [rule] else entry)
      s.memo }

end Session

namespace Task

variable {ω : Type}

/-- The items one after the other. The last splice among them counts. -/
def sequence (eval : Eval ω) :
    List AtomId → Nat → Array ParseTree → Option Nat → Session ω → Outcome Matched × Session ω
  | [], pos, out, splice, s => (.ok ⟨pos, out, splice⟩, s)
  | a :: rest, pos, out, splice, s =>
      match eval a pos out s with
      | (.ok m, s) => sequence eval rest m.stop m.out (m.splice.or splice) s
      | (.backtrack f, s) => (.backtrack f, s)
      | (.abort e, s) => (.abort e, s)

/-- The evaluation of one alternative, told to the observer before and after. -/
def alternative (task : Task ω) (eval : Eval ω) (active : List Call) (id : AtomId) (index : Nat)
    (a : AtomId) (pos : Nat) (out : Array ParseTree) (s : Session ω) :
    Outcome Matched × Session ω :=
  match eval a pos out (s.note task.observer active (.tries id index pos)) with
  | (.ok m, s) => (.ok m, s.note task.observer active (.tried id index pos (some m.stop)))
  | (.backtrack f, s) => (.backtrack f, s.note task.observer active (.tried id index pos none))
  | (.abort e, s) => (.abort e, s)

/-- The alternatives from number `index` on; `failure` joins the failures of those before. -/
def choice (task : Task ω) (eval : Eval ω) (active : List Call) (id : AtomId) (pos : Nat)
    (out : Array ParseTree) :
    Nat → List AtomId → Failure → Session ω → Outcome Matched × Session ω
  | _, [], failure, s => (.backtrack failure, s)
  | index, a :: rest, failure, s =>
      match task.alternative eval active id index a pos out s with
      | (.ok m, s) => (.ok m, s)
      | (.backtrack f, s) =>
          choice task eval active id pos out (index + 1) rest (failure.combine f) s
      | (.abort e, s) => (.abort e, s)

/-- Matches of one atom from `pos` on, `count` of which have been made. A match of nothing ends the
loop and stands for all that are missing. Every other match moves on, so `rounds` can be the number
of positions left. -/
def repetition (eval : Eval ω) (atom : AtomId) (min : Nat) (max : Option Nat) :
    Nat → Nat → Nat → Array ParseTree → Option Nat → Session ω → Outcome Matched × Session ω
  | 0, _, pos, out, splice, s => (.ok ⟨pos, out, splice⟩, s)
  | rounds + 1, count, pos, out, splice, s =>
      if max.any (· ≤ count) then (.ok ⟨pos, out, splice⟩, s)
      else
        match eval atom pos out s with
        | (.ok m, s) =>
            if pos < m.stop then
              repetition eval atom min max rounds (count + 1) m.stop m.out (m.splice.or splice) s
            else (.ok { m with splice := m.splice.or splice }, s)
        | (.backtrack f, s) =>
            if count < min then (.backtrack f, s) else (.ok ⟨pos, out, splice⟩, s)
        | (.abort e, s) => (.abort e, s)

/-- Looks ahead without consuming. What was expected on the way is forgotten, unless the lookahead
itself fails for want of it. -/
def lookahead (eval : Eval ω) (atom : AtomId) (positive : Bool) (pos : Nat)
    (out : Array ParseTree) (s : Session ω) : Outcome Matched × Session ω :=
  match eval atom pos #[] s, positive with
  | (.ok _, after), true => (.ok ⟨pos, out, none⟩, { after with furthest := s.furthest })
  | (.ok _, after), false => (.backtrack (.here pos), { after with furthest := s.furthest })
  | (.backtrack f, after), true => (.backtrack f, after)
  | (.backtrack _, after), false => (.ok ⟨pos, out, none⟩, { after with furthest := s.furthest })
  | (.abort e, after), _ => (.abort e, after)

/-- A terminal, which notes what it expected when it fails. -/
def terminal (task : Task ω) (id : AtomId) (pos : Nat) (out : Array ParseTree) (s : Session ω) :
    Outcome Matched × Session ω :=
  match task.subject.matchTerminal task.grammar id pos with
  | some (stop, leaf) => (.ok ⟨stop, out.push leaf, none⟩, s)
  | none =>
      let failure := Failure.expecting pos (task.grammar.label id)
      (.backtrack failure, s.fail failure)

/-- One atom, given the evaluation of its operands and the application of rules. -/
def operator (task : Task ω) (apply : Apply ω) (eval : Eval ω) (active : List Call) (id : AtomId)
    (atom : Atom) (pos : Nat) (out : Array ParseTree) (s : Session ω) :
    Outcome Matched × Session ω :=
  match atom with
  | .rule rule =>
      match apply rule pos s with
      | (.ok found, s) => (.ok ⟨found.stop, out.push found.tree, none⟩, s)
      | (.backtrack f, s) => (.backtrack f, s)
      | (.abort e, s) => (.abort e, s)
  | .literal _ => task.terminal id pos out s
  | .pattern _ => task.terminal id pos out s
  | .token _ => task.terminal id pos out s
  | .sequence atoms => sequence eval atoms pos out none s
  | .choice atoms => task.choice eval active id pos out 0 atoms (.here pos) s
  | .repetition a min max =>
      repetition eval a min max (task.subject.length - pos + 1) 0 pos out none s
  | .lookahead a positive => lookahead eval a positive pos out s
  | .discard a =>
      match eval a pos #[] s with
      | (.ok m, s) => (.ok ⟨m.stop, out, none⟩, s)
      | (.backtrack f, s) => (.backtrack f, s)
      | (.abort e, s) => (.abort e, s)
  | .splice a =>
      match eval a pos out s with
      | (.ok m, s) =>
          (.ok { m with
            splice := if m.out.size = out.size + 1 then some out.size else m.splice }, s)
      | (.backtrack f, s) => (.backtrack f, s)
      | (.abort e, s) => (.abort e, s)

/-- How far an outcome got, for the observer; nothing is said of an aborted one. -/
def noteAtom (task : Task ω) (active : List Call) (id : AtomId) (pos : Nat) :
    Outcome Matched × Session ω → Outcome Matched × Session ω
  | (.ok m, s) => (.ok m, s.note task.observer active (.atom id pos (some m.stop)))
  | (.backtrack f, s) => (.backtrack f, s.note task.observer active (.atom id pos none))
  | (.abort e, s) => (.abort e, s)

/-- The atom with a number below `bound`. A number outside the table matches nothing. -/
def eval (task : Task ω) (apply : Apply ω) (active : List Call) : Nat → Eval ω
  | 0, _, pos, _, s => (.backtrack (.here pos), s)
  | bound + 1, id, pos, out, s =>
      match task.grammar.atoms[id]? with
      | none => (.backtrack (.here pos), s)
      | some atom =>
          task.noteAtom active id pos
            (task.operator apply (eval task apply active bound) active id atom pos out s)

/-- The body of a rule. Its trees become the children of the rule's node, unless one of them
takes the node's place. -/
def body (task : Task ω) (apply : Apply ω) (active : List Call) (rule : RuleId) (pos : Nat)
    (s : Session ω) : Outcome Found × Session ω :=
  match task.grammar.rules[rule]? with
  | none => (.backtrack (.here pos), s)
  | some r =>
      match task.eval apply active task.grammar.atoms.size r.body pos #[] s with
      | (.ok m, s) =>
          (.ok ⟨(m.splice.bind (m.out[·]?)).getD (.node r.name m.out.toList), m.stop⟩, s)
      | (.backtrack f, s) => (.backtrack f, s)
      | (.abort e, s) => (.abort e, s)

/-- What a round of evaluation comes to. -/
inductive Round (ω : Type) where
  | done (outcome : Outcome Found) (s : Session ω)
  /-- The seed has grown. -/
  | again (s : Session ω)

/-- Changes the entry of a rule and tells the observer. -/
def put (task : Task ω) (active : List Call) (rule : RuleId) (pos : Nat) (entry : Entry)
    (action : Action) (s : Session ω) : Session ω :=
  { s with memo := s.memo.insert pos rule entry }.note task.observer active (.rule rule pos action)

def accept (task : Task ω) (active : List Call) (rule : RuleId) (pos : Nat) (entry : Entry)
    (found : Found) (s : Session ω) : Round ω :=
  .done (.ok found)
    (task.put active rule pos (entry.store .matched found) (.matched found.stop) s)

/-- A match becomes the new seed. What depends on the old one is dropped. -/
def plant (task : Task ω) (active : List Call) (rule : RuleId) (pos : Nat) (entry : Entry)
    (found : Found) (s : Session ω) : Round ω :=
  let memo := entry.dependents.foldl (fun memo other => memo.remove pos other) s.memo
  let s := task.put (⟨rule, pos⟩ :: active) rule pos (entry.store .seeded found)
    (.grow found.stop) { s with memo }
  .again { s with memo := s.memo.insert pos rule (entry.store .inProgress found) }

/-- Settles the entry of a rule after its body has been evaluated, or plants a seed. A seed that is
there wins over a match that is no longer. -/
def settle (task : Task ω) (active : List Call) (rule : RuleId) (pos : Nat) :
    Outcome Found × Session ω → Round ω
  | (attempt, s) =>
      match s.memo.get? pos rule, attempt with
      | none, attempt => .done attempt s
      | some _, .abort e => .done (.abort e) s
      | some entry, .backtrack f =>
          match entry.found? with
          | some seed => task.accept active rule pos entry seed s
          | none =>
              .done (.backtrack f)
                (task.put active rule pos { entry with state := .failed, failure := some f }
                  .failed s)
      | some entry, .ok found =>
          if entry.isGrowing then
            match entry.found? with
            | some seed =>
                if found.stop ≤ seed.stop then task.accept active rule pos entry seed s
                else task.plant active rule pos entry found s
            | none => task.plant active rule pos entry found s
          else task.accept active rule pos entry found s

/-- Evaluates a rule until its seed no longer grows. A seed grows by at least one position,
which bounds the number of rounds. -/
def grow (task : Task ω) (active : List Call) (rule : RuleId) (pos : Nat)
    (body : Session ω → Outcome Found × Session ω) :
    Nat → Session ω → Outcome Found × Session ω
  | 0, s => (.backtrack (.here pos), s)
  | rounds + 1, s =>
      match task.settle active rule pos (body s) with
      | .done outcome s => (outcome, s)
      | .again s => grow task active rule pos body rounds s

/-- The match of an entry, or a failure. -/
def seedOr (failure : Failure) (entry : Entry) : Outcome Found :=
  match entry.found? with
  | some found => .ok found
  | none => .backtrack failure

/-- The rule has an entry already. A final one answers for good; one in progress answers with
its seed and is marked. -/
def replay (task : Task ω) (active : List Call) (rule : RuleId) (pos : Nat) (entry : Entry)
    (s : Session ω) : Outcome Found × Session ω :=
  match entry.state with
  | .matched =>
      (seedOr (.here pos) entry, s.note task.observer active (.rule rule pos .replayed))
  | .failed =>
      (.backtrack (entry.failure.getD (.here pos)),
        s.note task.observer active (.rule rule pos .replayed))
  | _ =>
      (seedOr (.here pos) entry,
        (s.reenter active rule pos).note task.observer active (.rule rule pos .reentered))

/-- Applies a rule inside the applications `active`, with room for `room` more. -/
def apply (task : Task ω) : Nat → List Call → Apply ω
  | 0, active, _, _, s =>
      (.abort (.recursionLimitExceeded (active.length + 1) active.length), s)
  | room + 1, active, rule, pos, s =>
      let (known, memo) := s.memo.lookup pos rule
      let s := { s with memo }
      match known with
      | some entry => task.replay active rule pos entry s
      | none =>
          let s := s.enlist active rule pos
          let s := { s with memo := s.memo.insert pos rule .inProgress }
          let inside := ⟨rule, pos⟩ :: active
          task.grow active rule pos (task.body (apply task room inside) inside rule pos)
            (task.subject.length - pos + 2)
            (s.note task.observer inside (.rule rule pos .enter))

end Task

end Seedling
