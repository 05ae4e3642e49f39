import Seedling.Proofs.Grammar.Validation
import Seedling.Proofs.Parse.Depth

/-!
Parsers in use. A parser may be asked for one parse after another and keeps the state of the last
one; a request that is refused leaves it as it was, and a parse that is given up leaves entries that
are still growing. No answer depends on that: each is the answer of a parser that has not been used
before. Nor does an answer depend on whether somebody watches how it comes about.
-/

namespace Seedling

/-- What a parser can be asked for. -/
inductive Request where
  | parse (input : Input)
  | parseRule (name : String) (input : Input)
  | parseTraced (input : Input)
  | reset

inductive Answer where
  | verdict (result : Except ParseError ParseTree)
  | traced (result : Except ParseError ParseTree) (trace : List TraceEntry)
  | done

namespace Parser

/-- The answer to a request, and the parser as the request leaves it. -/
def serve (p : Parser) : Request → Answer × Parser
  | .parse input => (.verdict (p.parse input).1, (p.parse input).2)
  | .parseRule name input => (.verdict (p.parseRule name input).1, (p.parseRule name input).2)
  | .parseTraced input =>
      (.traced (p.parseTraced input).1 (p.parseTraced input).2.1, (p.parseTraced input).2.2)
  | .reset => (.done, p.reset)

/-- The answers to requests that are made one after the other. -/
def serveAll (p : Parser) : List Request → List Answer
  | [] => []
  | request :: rest => (p.serve request).1 :: (p.serve request).2.serveAll rest

/-- The parser as it was made. -/
def fresh (p : Parser) : Parser := ofGrammar p.grammar p.config

@[simp] theorem grammar_fresh (p : Parser) : p.fresh.grammar = p.grammar := rfl

@[simp] theorem config_fresh (p : Parser) : p.fresh.config = p.config := rfl

@[simp] theorem fresh_reset (p : Parser) : p.reset.fresh = p.fresh := rfl

@[simp] theorem fresh_leave {ω : Type} (p : Parser) (result : Outcome Found × Session ω) :
    (p.leave result).fresh = p.fresh := rfl

/-- After a reset there is no telling whether a parser was in use. -/
theorem reset_fresh {p : Parser} (htrace : p.trace = none) : p.fresh.reset = p.reset := by
  obtain ⟨_, _, _, _, _, _, _, _⟩ := p
  cases htrace
  rfl

/-! ### Being watched -/

/-- A parse comes to the same whoever is watching, also when it is given up. -/
theorem conclude_attempt_watched {ω ω' : Type} (g : Grammar) (input : Input) (observer : Observer ω)
    (log : ω) (observer' : Observer ω') (log' : ω') (start : RuleId) (depth : Nat) :
    conclude (.ofInput input) (attempt g input observer log start depth) =
      conclude (.ofInput input) (attempt g input observer' log' start depth) := by
  rcases attempt_cases (Nat.le_refl depth) with ⟨hnone, -⟩ | ⟨herror, -⟩
  · obtain ⟨houtcome, -, hfurthest⟩ := attempt_watched observer' log' hnone
    exact conclude_congr houtcome.symm hfurthest.symm
  · -- the other parse is given up too, for otherwise this one would have come to the same
    have herror' : (attempt g input observer' log' start depth).1.error? =
        some (.recursionLimitExceeded (depth + 1) depth) := by
      rcases attempt_cases (Nat.le_refl depth) with ⟨hnone, -⟩ | ⟨herror', -⟩
      · rw [(attempt_watched observer log hnone).1, hnone] at herror
        contradiction
      · exact herror'
    rw [conclude_abort (Outcome.eq_abort_of_error? herror),
      conclude_abort (Outcome.eq_abort_of_error? herror')]

theorem run_watched {ω ω' : Type} (p : Parser) (observer : Observer ω) (log : ω)
    (observer' : Observer ω') (log' : ω') (rule : RuleId) (input : Input) :
    (p.run observer log rule input).1 = (p.run observer' log' rule input).1 := by
  cases hrefusal : refusal p.grammar p.config input with
  | none =>
      rw [run_eq_attempt hrefusal, run_eq_attempt hrefusal]
      exact conclude_attempt_watched p.grammar input observer log observer' log' rule
        p.config.maxDepth
  | some e => rw [run_refused hrefusal, run_refused hrefusal]

/-! ### What a parser keeps -/

section Kept

variable {ω : Type} (p : Parser) (observer : Observer ω) (log : ω) (rule : RuleId) (input : Input)

/-- A parse that is begun depends on nothing that it finds, neither in what it comes to nor in
what it leaves. -/
theorem run_begun {p : Parser} (htrace : p.trace = none)
    (h : refusal p.grammar p.config input = none) :
    p.run observer log rule input = p.fresh.run observer log rule input := by
  have hfresh : refusal p.fresh.grammar p.fresh.config input = none := h
  rw [run_accepted h, run_accepted hfresh, reset_fresh htrace]

theorem run_fresh :
    (p.fresh.run observer log rule input).1 = (p.run observer log rule input).1 ∧
      (p.fresh.run observer log rule input).2.1 = (p.run observer log rule input).2.1 := by
  cases hrefusal : refusal p.grammar p.config input with
  | none =>
      -- what a trace has so far takes no part
      have hrun := @run_begun ω observer log rule input { p with trace := none } rfl hrefusal
      rw [run_traced] at hrun
      exact ⟨congrArg (·.1) hrun.symm, congrArg (·.2.1) hrun.symm⟩
  | some e =>
      have hfresh : refusal p.fresh.grammar p.fresh.config input = some e := hrefusal
      rw [run_refused hrefusal, run_refused hfresh]
      exact ⟨rfl, rfl⟩

theorem fresh_run : (p.run observer log rule input).2.2.fresh = p.fresh := by
  cases hrefusal : refusal p.grammar p.config input with
  | none => rw [run_accepted hrefusal, fresh_leave, fresh_reset]
  | some e => rw [run_refused hrefusal]

theorem record_fst : (p.record rule input).1 = (p.run .silent () rule input).1 := by
  obtain ⟨_, observer, log, hrecord⟩ := p.exists_run_eq_record rule input
  rw [hrecord]
  exact run_watched p observer log .silent () rule input

theorem record_fresh : (p.fresh.record rule input).1 = (p.record rule input).1 := by
  rw [record_fst, record_fst]
  exact (run_fresh p .silent () rule input).1

theorem fresh_record : (p.record rule input).2.fresh = p.fresh := by
  rw [record]
  split
  · exact fresh_run p .silent () rule input
  · exact fresh_run p (.tracer p.grammar) _ rule input

theorem parseRule_fresh (name : String) :
    (p.fresh.parseRule name input).1 = (p.parseRule name input).1 := by
  rw [parseRule, parseRule, grammar_fresh]
  split
  · rfl
  · exact record_fresh p _ input

theorem serve_fresh (request : Request) : (p.fresh.serve request).1 = (p.serve request).1 := by
  cases request with
  | parse input => exact congrArg Answer.verdict (record_fresh p p.grammar.root input)
  | parseRule name input => exact congrArg Answer.verdict (parseRule_fresh p input name)
  | parseTraced input =>
      obtain ⟨hresult, hlog⟩ := run_fresh p (.tracer p.grammar) [] p.grammar.root input
      rw [serve, serve, parseTraced_eq, parseTraced_eq]
      exact congrArg₂ Answer.traced hresult (congrArg List.reverse hlog)
  | reset => rfl

theorem fresh_parseRule (name : String) : (p.parseRule name input).2.fresh = p.fresh := by
  rw [parseRule]
  split
  · rfl
  · exact fresh_record p _ input

theorem fresh_serve (request : Request) : (p.serve request).2.fresh = p.fresh := by
  cases request with
  | parse input => exact fresh_record p p.grammar.root input
  | parseRule name input => exact fresh_parseRule p input name
  | parseTraced input =>
      rw [serve, parseTraced_eq]
      exact fresh_run p (.tracer p.grammar) [] p.grammar.root input
  | reset => rfl

/-- Whatever a parser has been asked for, it answers as if it had not been used before. -/
theorem serveAll_eq_map (requests : List Request) :
    p.serveAll requests = requests.map fun request => (p.fresh.serve request).1 := by
  induction requests generalizing p with
  | nil => rfl
  | cons request rest ih => rw [serveAll, ih, fresh_serve, List.map_cons, serve_fresh]

theorem parseAll_eq_map (inputs : List Input) :
    p.parseAll inputs = inputs.map fun input => (p.fresh.parse input).1 := by
  induction inputs generalizing p with
  | nil => rfl
  | cons input rest ih =>
      have hfresh : (p.parse input).2.fresh = p.fresh := fresh_record p p.grammar.root input
      have hverdict : (p.fresh.parse input).1 = (p.parse input).1 :=
        record_fresh p p.grammar.root input
      show (p.parse input).1 :: (p.parse input).2.parseAll rest = _
      rw [ih, hfresh, List.map_cons, hverdict]

end Kept

/-! ### What a request leaves -/

section Left

variable {p : Parser} (htrace : p.trace = none)

include htrace

/-- A parse is refused, which leaves the parser as it is, or it is the parse of the parser as it
was made. -/
theorem run_cases {ω : Type} (observer : Observer ω) (log : ω) (rule : RuleId) (input : Input) :
    (p.run observer log rule input).2.2 = p ∨
      p.run observer log rule input = p.fresh.run observer log rule input := by
  cases hrefusal : refusal p.grammar p.config input with
  | some e => exact .inl (by rw [run_refused hrefusal])
  | none => exact .inr (run_begun observer log rule input htrace hrefusal)

theorem record_eq (rule : RuleId) (input : Input) :
    p.record rule input =
      ((p.run .silent () rule input).1, (p.run .silent () rule input).2.2) := by
  rw [record, htrace]

theorem record_cases (rule : RuleId) (input : Input) :
    (p.record rule input).2 = p ∨ p.record rule input = p.fresh.record rule input := by
  rw [record_eq htrace, record_eq (show p.fresh.trace = none from rfl)]
  rcases run_cases htrace .silent () rule input with hkept | hbegun
  · exact .inl hkept
  · exact .inr (by rw [hbegun])

/-- A request leaves a parser as it is, or as the same request leaves a parser that has just
been made. -/
theorem serve_cases (request : Request) :
    (p.serve request).2 = p ∨ p.serve request = p.fresh.serve request := by
  cases request with
  | parse input =>
      rcases record_cases htrace p.grammar.root input with hkept | hbegun
      · exact .inl hkept
      · exact .inr (congrArg (fun r => (Answer.verdict r.1, r.2)) hbegun)
  | parseRule name input =>
      rw [serve, serve, parseRule, parseRule, grammar_fresh]
      cases p.grammar.ruleId? name with
      | none => exact .inl rfl
      | some rule =>
          rcases record_cases htrace rule input with hkept | hbegun
          · exact .inl hkept
          · exact .inr (congrArg (fun r => (Answer.verdict r.1, r.2)) hbegun)
  | parseTraced input =>
      rw [serve, serve, parseTraced_eq, parseTraced_eq, grammar_fresh]
      rcases run_cases htrace (.tracer p.grammar) [] p.grammar.root input with hkept | hbegun
      · refine .inl ?_
        dsimp only
        rw [hkept, ← htrace]
      · exact .inr (by rw [hbegun])
  | reset => exact .inr (by rw [serve, serve, reset_fresh htrace])

end Left

/-- A parser carries nothing from one request to the next, and a trace does not change what it
traces. A request that does not leave the parser as it was leaves it as it leaves a parser that
has just been made. So a batch comes to what its texts come to one by one, also when it is
shared out in pieces to parsers that work side by side. -/
theorem serveAll_afresh (p : Parser) (requests : List Request) :
    p.serveAll requests = requests.map (fun request => (p.fresh.serve request).1) ∧
      (p.trace = none → ∀ request, (p.serve request).2 = p ∨
        p.serve request = p.fresh.serve request) ∧
      (∀ input, (p.parseTraced input).1 = (p.parse input).1) ∧
      ∀ (g : Grammar) (config : Config),
        (∀ texts, g.parseBatch config texts =
          texts.map fun text => ((ofGrammar g config).parse (.text text)).1) ∧
        ∀ pieces : List (List String), pieces.flatMap (g.parseBatch config) =
          pieces.flatten.map fun text => ((ofGrammar g config).parse (.text text)).1 := by
  have hbatch : ∀ (g : Grammar) (config : Config) (texts : List String),
      g.parseBatch config texts =
        texts.map fun text => ((ofGrammar g config).parse (.text text)).1 := by
    intro g config texts
    rw [Grammar.parseBatch, parseAll_eq_map, List.map_map]
    rfl
  refine ⟨serveAll_eq_map p requests, serve_cases, fun input => ?_,
    fun g config => ⟨hbatch g config, fun pieces => ?_⟩⟩
  · rw [parseTraced_eq, parse, record_fst]
    exact run_watched p (.tracer p.grammar) [] .silent () p.grammar.root input
  · rw [funext (hbatch g config), List.map_flatten, List.flatMap]

/-- `sum: sum '+' unit | unit` with `unit: '(' <sum> ')' | '1'`. -/
def bracketed : Grammar :=
  .compiled #[.rule 0, .literal "+", .rule 1, .sequence [0, 1, 2], .choice [3, 2], .literal "(",
      .literal ")", .splice 0, .sequence [5, 7, 6], .literal "1", .choice [8, 9]]
    #[⟨"sum", 4⟩, ⟨"unit", 10⟩] 0

/-- A parser of `bracketed` with little room, that counts applications. -/
def cramped : Parser := ofGrammar bracketed { maxInputSize := 8, maxDepth := 4, timeout := 1 }

/-- The parse of `1+((1))` is given up while the sum at the start has `1` for a seed and grows,
and leaves that behind; the next two inputs are refused, one for its kind and one for its size,
and leave it there. All the same `1+1` is parsed afterwards as it was before, and then nothing
else is left. -/
theorem serveAll_afresh_cramped :
    ((cramped.parse (.text "1+((1))")).2.memo.get? 0 0).any
        (fun entry => entry.state = .reentered && entry.hasSeed && entry.stop = 1) = true ∧
      (cramped.parse (.text "1+1")).1.isOk = true ∧
      cramped.serveAll [.parse (.text "1+1"), .parse (.text "1+((1))"), .parse (.tokens []),
          .parse (.text "1+1+1+1+1"), .parse (.text "1+1")] =
        [.verdict (cramped.parse (.text "1+1")).1, .verdict (.error (.recursionLimitExceeded 5 4)),
          .verdict (.error (.modeMismatch .text .tokens)), .verdict (.error (.inputTooLarge 9 8)),
          .verdict (cramped.parse (.text "1+1")).1] ∧
      (cramped.parse (.text "1+((1))")).2.serve (.parse (.text "1+1")) =
        cramped.serve (.parse (.text "1+1")) := by
  have hlimit : (cramped.parse (.text "1+((1))")).1 = .error (.recursionLimitExceeded 5 4) := rfl
  have hkind : (cramped.parse (.tokens [])).1 = .error (.modeMismatch .text .tokens) := rfl
  have hsize : (cramped.parse (.text "1+1+1+1+1")).1 = .error (.inputTooLarge 9 8) := rfl
  refine ⟨by decide +kernel, by decide +kernel, ?_, ?_⟩
  · rw [(serveAll_afresh cramped _).1, ← hlimit, ← hkind, ← hsize]
    rfl
  · have hcount : ((cramped.parse (.text "1+((1))")).2.serve (.parse (.text "1+1"))).2.opCount ≠
        (cramped.parse (.text "1+((1))")).2.opCount := by
      decide +kernel
    have hcases := (serveAll_afresh (cramped.parse (.text "1+((1))")).2 []).2.1 rfl
      (.parse (.text "1+1"))
    rcases hcases with hkept | hbegun
    · exact absurd (congrArg opCount hkept) hcount
    · rwa [show (cramped.parse (.text "1+((1))")).2.fresh = cramped from
        fresh_record cramped cramped.grammar.root _] at hbegun

end Parser

end Seedling
