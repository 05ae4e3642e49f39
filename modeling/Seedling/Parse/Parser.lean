import Seedling.Parse.Eval

/-!
Parsers: a grammar with limits, and the state of a parse. An input may be refused, which leaves
the state as it is; a parse starts with a reset and leaves the state as it ends, to be looked at
and to be reset by the next parse.

Time is not modelled: no parse is given up because it takes too long.
-/

namespace Seedling

structure Config where
  maxInputSize : Nat := 104857600
  maxDepth : Nat := 256
  /-- In milliseconds, zero for no limit. Under a limit the applications of rules are counted. -/
  timeout : Nat := 0

structure Parser where
  grammar : Grammar
  config : Config
  memo : MemoTable
  /-- The applications in progress, the innermost first. -/
  callStack : List Call
  /-- The furthest failure of a terminal. -/
  furthest : Failure
  depth : Nat
  /-- The applications so far, if they are counted. -/
  opCount : Nat
  /-- The trace, if one is written, the newest entry first. -/
  trace : Option (List TraceEntry)

namespace Observer

def silent : Observer Unit := ⟨fun _ _ _ _ => ()⟩

/-- How deep an action on a rule is; the rule itself counts, whether or not it is in progress. -/
def depth (active : List Call) : Action → Nat
  | .enter => active.length
  | .grow _ => active.length
  | _ => active.length + 1

/-- Writes a trace, the newest entry first. -/
def tracer (g : Grammar) : Observer (List TraceEntry) where
  note active _ event log :=
    match event with
    | .rule rule position action =>
        ⟨position, g.ruleName rule, action, depth active action⟩ :: log
    | _ => log

end Observer

namespace Parser

def ofGrammar (g : Grammar) (config : Config) : Parser :=
  ⟨g, config, .empty, [], .here 0, 0, 0, none⟩

/-- Forgets everything about the last parse. A trace is up to whoever asks for it. -/
def reset (p : Parser) : Parser :=
  { p with memo := .empty, callStack := [], furthest := .here 0, depth := 0, opCount := 0 }

/-- The error of a parse whose start rule matched up to `stop` only. -/
def incompleteAt (subject : Subject) (stop : Nat) (furthest : Failure) : ParseError :=
  let failure := if furthest.position < stop then .here stop else furthest
  let expected :=
    if failure.position = stop then failure.expected.insert "end of input" else failure.expected
  .incomplete stop failure.position expected (subject.location failure.position)

/-- The verdict on the outcome of the start rule. -/
def conclude {ω : Type} (subject : Subject) :
    Outcome Found × Session ω → Except ParseError ParseTree
  | (.ok found, s) =>
      if found.stop = subject.length then .ok found.tree
      else .error (incompleteAt subject found.stop s.furthest)
  | (.backtrack f, s) =>
      let failure := s.furthest.combine f
      .error (.failed failure.position failure.expected (subject.location failure.position))
  | (.abort e, _) => .error e

def oversized (config : Config) (input : Input) : Option ParseError :=
  if config.maxInputSize < input.length then
    some (.inputTooLarge input.length config.maxInputSize)
  else none

/-- What keeps an input from being parsed at all. -/
def refusal (g : Grammar) (config : Config) (input : Input) : Option ParseError :=
  match g.mode? with
  | some mode =>
      if mode = input.mode then oversized config input else some (.modeMismatch mode input.mode)
  | none => oversized config input

/-- How many applications there were between two states of a table. Each is looked up in the
table, but for one that finds no room and ends the parse. -/
def applications (before after : MemoTable) : Outcome Found → Nat
  | .abort _ => after.lookups - before.lookups + 1
  | _ => after.lookups - before.lookups

/-- The parser after a parse. An application takes its call off the stack whatever it comes to, also
when the parse is given up inside it, so the stack and the depth are again what they were. -/
def leave {ω : Type} (p : Parser) (result : Outcome Found × Session ω) : Parser :=
  { p with
    memo := result.2.memo
    furthest := result.2.furthest
    opCount :=
      if p.config.timeout = 0 then p.opCount
      else p.opCount + applications p.memo result.2.memo result.1 }

@[simp] theorem leave_memo {ω : Type} (p : Parser) (result : Outcome Found × Session ω) :
    (p.leave result).memo = result.2.memo := rfl

/-- Applies a rule at the start of an input, in the state that the parser is in. -/
def evaluate {ω : Type} (p : Parser) (observer : Observer ω) (log : ω) (rule : RuleId)
    (input : Input) : Outcome Found × Session ω :=
  Task.apply ⟨p.grammar, .ofInput input, observer⟩ (p.config.maxDepth - p.depth) p.callStack rule 0
    ⟨p.memo, p.furthest, log⟩

/-- Parses from a rule under an observer. An input that is refused leaves the parser as it was. -/
def run {ω : Type} (p : Parser) (observer : Observer ω) (log : ω) (rule : RuleId)
    (input : Input) : Except ParseError ParseTree × ω × Parser :=
  match refusal p.grammar p.config input with
  | some e => (.error e, log, p)
  | none =>
      let p := p.reset
      let result := p.evaluate observer log rule input
      (conclude (.ofInput input) result, result.2.log, p.leave result)

/-- Parses from a rule and goes on with the trace, if one is written. -/
def record (p : Parser) (rule : RuleId) (input : Input) : Except ParseError ParseTree × Parser :=
  match p.trace with
  | none =>
      let (result, _, p) := p.run .silent () rule input
      (result, p)
  | some entries =>
      let (result, entries, p) := p.run (.tracer p.grammar) entries rule input
      (result, { p with trace := some entries })

def parse (p : Parser) (input : Input) : Except ParseError ParseTree × Parser :=
  p.record p.grammar.root input

def parseRule (p : Parser) (name : String) (input : Input) :
    Except ParseError ParseTree × Parser :=
  match p.grammar.ruleId? name with
  | none => (.error (.unknownRule name), p)
  | some rule => p.record rule input

def parseTraced (p : Parser) (input : Input) :
    Except ParseError ParseTree × List TraceEntry × Parser :=
  let (result, p) := { p with trace := some [] }.parse input
  (result, (p.trace.getD []).reverse, { p with trace := none })

/-- Parses one input after the other with the same parser. -/
def parseAll (p : Parser) : List Input → List (Except ParseError ParseTree)
  | [] => []
  | input :: rest =>
      let (result, p) := p.parse input
      result :: parseAll p rest

section Runs

variable {ω : Type} {p : Parser} {observer : Observer ω} {log : ω} {rule : RuleId} {input : Input}

theorem run_refused {e : ParseError} (h : refusal p.grammar p.config input = some e) :
    p.run observer log rule input = (.error e, log, p) := by
  rw [run, h]

theorem run_accepted (h : refusal p.grammar p.config input = none) :
    p.run observer log rule input =
      (conclude (.ofInput input) (p.reset.evaluate observer log rule input),
        (p.reset.evaluate observer log rule input).2.log,
        p.reset.leave (p.reset.evaluate observer log rule input)) := by
  rw [run, h]

/-- After a reset a rule is applied with all the room there is, inside nothing and knowing
nothing. -/
theorem evaluate_reset :
    p.reset.evaluate observer log rule input =
      Task.apply ⟨p.grammar, .ofInput input, observer⟩ p.config.maxDepth [] rule 0
        ⟨.empty, .here 0, log⟩ :=
  rfl

/-- The trace is no part of what a parse depends on. -/
theorem run_traced (trace : Option (List TraceEntry)) :
    { p with trace }.run observer log rule input =
      ((p.run observer log rule input).1, (p.run observer log rule input).2.1,
        { (p.run observer log rule input).2.2 with trace }) := by
  cases h : refusal p.grammar p.config input with
  | none =>
      have h' : refusal { p with trace }.grammar { p with trace }.config input = none := h
      rw [run_accepted h, run_accepted h']
      rfl
  | some e =>
      have h' : refusal { p with trace }.grammar { p with trace }.config input = some e := h
      rw [run_refused h, run_refused h']

theorem exists_run_eq_record (p : Parser) (rule : RuleId) (input : Input) :
    ∃ (ω : Type) (observer : Observer ω) (log : ω),
      (p.record rule input).1 = (p.run observer log rule input).1 := by
  cases h : p.trace with
  | none => exact ⟨Unit, .silent, (), by rw [record, h]⟩
  | some entries => exact ⟨List TraceEntry, .tracer p.grammar, entries, by rw [record, h]⟩

theorem parseTraced_eq :
    p.parseTraced input =
      ((p.run (.tracer p.grammar) [] p.grammar.root input).1,
        (p.run (.tracer p.grammar) [] p.grammar.root input).2.1.reverse,
        { (p.run (.tracer p.grammar) [] p.grammar.root input).2.2 with trace := none }) := by
  rw [parseTraced, parse, record]
  simp only [run_traced, Option.getD_some]

end Runs

end Parser

namespace Grammar

def parse (g : Grammar) (input : Input) : Except ParseError ParseTree :=
  ((Parser.ofGrammar g {}).parse input).1

def parseRule (g : Grammar) (name : String) (input : Input) : Except ParseError ParseTree :=
  ((Parser.ofGrammar g {}).parseRule name input).1

/-- Parses several texts under the same limits. -/
def parseBatch (g : Grammar) (config : Config) (texts : List String) :
    List (Except ParseError ParseTree) :=
  (Parser.ofGrammar g config).parseAll (texts.map .text)

end Grammar

end Seedling
