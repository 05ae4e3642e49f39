import Seedling.Proofs.Parse.Refinement

/-!
Answers from the memo table. A rule that uses no two rules on each other's left edge is answered
as if it were applied with an empty table, at every point of a parse and whatever the rest of
the grammar is like.

Rules that call each other on the left are different: what is left in the table of one of them was
made with the last seed of another, and answers differently from a fresh application.
-/

namespace Seedling

/-- A part of a grammar. -/
inductive Part where
  | rule (r : RuleId)
  | atom (id : AtomId)

/-- What a rule is made of, directly or through the rules that it refers to. -/
inductive Grammar.Uses (g : Grammar) (r : RuleId) : Part → Prop where
  | self : g.Uses r (.rule r)
  | body {r' rule} : g.Uses r (.rule r') → g.rules[r']? = some rule → g.Uses r (.atom rule.body)
  | child {id c atom} : g.Uses r (.atom id) → g.atoms[id]? = some atom → c ∈ atom.children →
      g.Uses r (.atom c)
  | call {id r'} : g.Uses r (.atom id) → g.atoms[id]? = some (.rule r') → g.Uses r (.rule r')

/-- The region of what a rule uses. -/
def Grammar.below (g : Grammar) (r : RuleId) : Region g where
  rules r' := g.Uses r (.rule r')
  atoms a := g.Uses r (.atom a)
  body h hrule := .body h hrule
  child h hatom _ hc := .child h hatom hc
  call h hatom := .call h hatom

structure Replay where
  active : List Call
  rule : RuleId
  position : Nat
  entry : Entry

/-- Writes down the answers from the memo table, the newest first. -/
def Observer.replays : Observer (List Replay) where
  note active memo event log :=
    match event with
    | .rule rule position .replayed =>
        match memo.get? position rule with
        | some entry => ⟨active, rule, position, entry⟩ :: log
        | none => log
    | _ => log

/-- A match or a failure; nothing of an outcome that was given up. -/
def Outcome.result? {α : Type} : Outcome α → Option (Option α)
  | .ok a => some (some a)
  | .backtrack _ => some none
  | .abort _ => none

theorem Meets.result? {α ω : Type} {abort : Prop} {P : Option α → Session ω → Prop}
    {result : Outcome α × Session ω} (h : Meets (fun _ => abort) P result) (habort : ¬ abort) :
    ∃ o, result.1.result? = some o ∧ P o result.2 := by
  obtain ⟨outcome, s⟩ := result
  cases outcome with
  | ok a => exact ⟨some a, rfl, h⟩
  | backtrack f => exact ⟨none, rfl, h⟩
  | abort e => exact absurd h.2 habort

theorem Meets.of_conclude {ω : Type} {abort : Session ω → Prop}
    {P : Option Found → Session ω → Prop} {result : Outcome Found × Session ω}
    {subject : Subject} (h : Meets abort P result)
    (hlimit : ∀ e, Parser.conclude subject result = .error e → e.isLimit = false) :
    ∃ o, P o result.2 := by
  obtain ⟨outcome, s⟩ := result
  cases outcome with
  | ok a => exact ⟨some a, h⟩
  | backtrack f => exact ⟨none, h⟩
  | abort e => cases (hlimit e rfl).symm.trans h.1

theorem Entry.Settled.replay_result? {ω : Type} {e : Entry} (he : e.Settled) (task : Task ω)
    (active : List Call) (r : RuleId) (p : Nat) (s : Session ω) :
    (task.replay active r p e s).1.result? = some e.found? := by
  rcases he with ⟨hstate, hsome⟩ | ⟨hstate, hnone, -⟩
  · obtain ⟨f, hf⟩ := Option.isSome_iff_exists.1 hsome
    rw [Task.replay, hstate]
    dsimp only
    rw [Task.seedOr, hf]
    rfl
  · rw [Task.replay, hstate, hnone]
    rfl

section Replays

variable {g : Grammar} {input : Input} {r : RuleId}

/-- The answers for `r` that were written down are what the rule comes to. -/
def Settles (g : Grammar) (input : Input) (r : RuleId) (log : List Replay) : Prop :=
  ∀ x ∈ log, x.rule = r → x.entry.Settled ∧ r < g.rules.size ∧ x.position ≤ input.length ∧
    Applies g (.ofInput input) .none r x.position x.entry.found?

theorem settles_note {active : List Call} {s : Session (List Replay)} {event : Event}
    (h : Kept ((g.below r).ledger input (Settles g input r)) g
      (Subject.ofInput input).length active s)
    (hevent : ∀ r p, event = .rule r p .replayed →
      ∃ e, s.memo.get? p r = some e ∧ e.isFinal = true) :
    Settles g input r (Observer.replays.note active s.memo event s.log) := by
  have hlog : Settles g input r s.log := h.log
  unfold Observer.replays
  dsimp only
  split
  · rename_i r' p
    obtain ⟨e, he, hfinal⟩ := hevent r' p rfl
    rw [he]
    intro x hx hrule
    rcases List.mem_cons.1 hx with rfl | hx
    · obtain rfl : r' = r := hrule
      obtain ⟨hr, hp⟩ := h.inRange he
      obtain ⟨hsettled, -, happlies⟩ := h.settled he hfinal
      rw [Subject.length_ofInput] at hp
      exact ⟨hsettled, hr, hp, happlies .self⟩
    · exact hlog x hx hrule
  · exact hlog

end Replays

namespace Parser

variable {parser : Parser} {input : Input} {start : RuleId}

/-- Answers from the memo table do not depend on what was parsed before, if the rule uses no two
rules on each other's left edge and no repetition that is allowed no match and yet told to have
some. -/
theorem replay_eq_apply_nil {atoms : Array Atom} {rules : Array Rule} {root : RuleId}
    (hg : Grammar.ofParts atoms rules root = .ok parser.grammar)
    (hstart : start < parser.grammar.rules.size)
    (hlimit : ∀ e, (parser.run .replays [] start input).1 = .error e → e.isLimit = false)
    {x : Replay} (hx : x ∈ (parser.run .replays [] start input).2.1)
    (hdirect : ∀ a b, parser.grammar.Uses x.rule (.rule a) → parser.grammar.Uses x.rule (.rule b) →
      b ∈ parser.grammar.leftEdge.reachOf a → a ∈ parser.grammar.leftEdge.reachOf b → a = b)
    (hrepetition : ∀ (id a : AtomId) (min : Nat), parser.grammar.Uses x.rule (.atom id) →
      parser.grammar.atoms[id]? = some (.repetition a min (some 0)) → min = 0)
    {room : Nat} (hroom : parser.grammar.rules.size * (input.length + 1) < room)
    (s : Session (List Replay)) (furthest : Failure) (log : List Replay) :
    ∃ o, (Task.replay ⟨parser.grammar, .ofInput input, .replays⟩ x.active x.rule x.position x.entry
          s).1.result? = some o ∧
      (Task.apply ⟨parser.grammar, .ofInput input, .replays⟩ room [] x.rule x.position
          ⟨.empty, furthest, log⟩).1.result? = some o := by
  obtain ⟨hwf, -⟩ := Grammar.ofParts_eq_ok hg
  have hsat : (parser.grammar.below x.rule).Satisfiable := fun h hatom => hrepetition _ _ _ h hatom
  cases hrefusal : refusal parser.grammar parser.config input with
  | some e =>
      rw [run_refused hrefusal] at hx
      exact absurd hx List.not_mem_nil
  | none =>
      let L := (parser.grammar.below x.rule).reading hwf hsat hdirect .replays input
        (Settles parser.grammar input x.rule) settles_note
      have hmay : L.May [] start 0 :=
        ⟨hstart, Nat.zero_le _, fun c hc => absurd hc List.not_mem_nil⟩
      have hempty : L.Log [] := fun x hx => absurd hx List.not_mem_nil
      have hrun := L.apply_nil_meets hwf rfl parser.config.maxDepth (.here 0) hempty hmay
      rw [run_fst_eq .replays [] hrefusal] at hlimit
      obtain ⟨_, -, hlog⟩ := hrun.of_conclude hlimit
      rw [run_accepted hrefusal, evaluate_reset] at hx
      obtain ⟨hsettled, hr, hp, happlies⟩ := hlog x hx rfl
      have hfresh := Region.apply_nil_meets
        (R := parser.grammar.below x.rule) hwf hsat hdirect .self hr
        hp .replays room furthest log
      obtain ⟨o, ho, happlies'⟩ := hfresh.result? (Nat.not_le_of_lt hroom)
      refine ⟨x.entry.found?, hsettled.replay_result? _ _ _ _ _, ?_⟩
      rw [ho, happlies.unique happlies']

/-! ### Rules that call each other on the left -/

/-- Some answer of a parse without limit error goes elsewhere than a fresh application, though
no rule around it at its position is on its left edge. -/
def AnswersByHistory (g : Grammar) (input : Input) : Prop :=
  (∀ e, ((ofGrammar g {}).run .replays [] g.root input).1 = .error e → e.isLimit = false) ∧
    ∃ x ∈ ((ofGrammar g {}).run .replays [] g.root input).2.1,
      (∀ c ∈ x.active, c.position = x.position →
        c.rule ≠ x.rule ∧ c.rule ∉ g.leftEdge.reachOf x.rule) ∧
      (Task.replay ⟨g, .ofInput input, .replays⟩ x.active x.rule x.position x.entry
          ⟨.empty, .here 0, []⟩).1.result?.map (Option.map Found.stop) ≠
        (Task.apply ⟨g, .ofInput input, .replays⟩ (g.rules.size * (input.length + 1) + 1) [] x.rule
          x.position ⟨.empty, .here 0, []⟩).1.result?.map (Option.map Found.stop)

theorem noLimit_of_check {ω : Type} {observer : Observer ω} {log : ω}
    (h : (match (parser.run observer log start input).1 with
      | .ok _ => false
      | .error e => e.isLimit) = false) :
    ∀ e, (parser.run observer log start input).1 = .error e → e.isLimit = false := by
  intro e he
  rwa [he] at h

/-- `s: a 'z' | b 'x' | n 'z' | n` with `a: b 'x' | 'a'`, `b: a 'y' | 'b'` and `n: n 'y' | 'a'`. -/
def crossed : Grammar where
  atoms := #[.rule 1, .literal "z", .sequence [0, 1], .rule 2, .literal "x", .sequence [3, 4],
    .rule 3, .sequence [6, 1], .choice [2, 5, 7, 6], .literal "a", .choice [5, 9], .literal "y",
    .sequence [0, 11], .literal "b", .choice [12, 13], .sequence [6, 11], .choice [15, 9]]
  rules := #[⟨"s", 8⟩, ⟨"a", 10⟩, ⟨"b", 14⟩, ⟨"n", 16⟩]
  root := 0
  matchers := Array.replicate 17 none

set_option maxRecDepth 2000 in
theorem ofParts_crossed : Grammar.ofParts crossed.atoms crossed.rules 0 = .ok crossed := by
  with_unfolding_all rfl

/-- `s: a 'z' | b 'x'` with `a: e b 'x' | 'a'` and `b: e a 'y' | 'b'`, where `e` is a repetition
of at least one `q` and at most none. It hides the left calls. -/
def hidden : Grammar where
  atoms := #[.literal "q", .repetition 0 1 (some 0), .rule 1, .rule 2, .literal "z", .literal "x",
    .literal "a", .literal "y", .literal "b", .sequence [2, 4], .sequence [3, 5], .choice [9, 10],
    .sequence [1, 3, 5], .choice [12, 6], .sequence [1, 2, 7], .choice [14, 8]]
  rules := #[⟨"s", 11⟩, ⟨"a", 13⟩, ⟨"b", 15⟩]
  root := 0
  matchers := Array.replicate 16 none

set_option maxRecDepth 2000 in
theorem ofParts_hidden : Grammar.ofParts hidden.atoms hidden.rules 0 = .ok hidden := by
  with_unfolding_all rfl

/-- In `ayx` the entry of `b` that `a` leaves behind is a failure, where `b` by itself matches
`ay`. -/
theorem answersByHistory_crossed_hidden :
    (Grammar.ofParts crossed.atoms crossed.rules crossed.root = .ok crossed ∧
        AnswersByHistory crossed (.text "ayx")) ∧
      Grammar.ofParts hidden.atoms hidden.rules hidden.root = .ok hidden ∧
        AnswersByHistory hidden (.text "ayx") := by
  refine ⟨⟨ofParts_crossed, noLimit_of_check ?_, ?_⟩, ofParts_hidden, noLimit_of_check ?_, ?_⟩ <;>
    decide +kernel

theorem uses_crossed_n {part : Part} (h : crossed.Uses 3 part) :
    part = .rule 3 ∨ ∃ id ∈ [6, 9, 11, 15, 16], part = .atom id := by
  have hchild : ∀ id ∈ [6, 9, 11, 15, 16], ∀ atom ∈ crossed.atoms[id]?, ∀ c ∈ atom.children,
      c ∈ [6, 9, 11, 15, 16] := by
    decide
  have hcall : ∀ id ∈ [6, 9, 11, 15, 16], ∀ atom ∈ crossed.atoms[id]?,
      atom = .rule 3 ∨ atom.children ≠ [] ∨ atom.label? ≠ none := by
    decide
  induction h with
  | self => exact .inl rfl
  | body _ hrule ih =>
      rcases ih with heq | ⟨_, _, heq⟩
      · cases heq
        cases hrule
        exact .inr ⟨16, by decide, rfl⟩
      · contradiction
  | child _ hatom hc ih =>
      rcases ih with heq | ⟨_, hid, heq⟩
      · contradiction
      · cases heq
        exact .inr ⟨_, hchild _ hid _ hatom _ hc, rfl⟩
  | call _ hatom ih =>
      rcases ih with heq | ⟨_, hid, heq⟩
      · contradiction
      · cases heq
        rcases hcall _ hid _ hatom with heq | hne | hne
        · cases heq
          exact .inl rfl
        · exact absurd rfl hne
        · exact absurd rfl hne

/-- In the same parse `n` is answered from the table as if it were applied afresh. -/
theorem replay_crossed_n :
    ∃ x ∈ ((ofGrammar crossed {}).run .replays [] 0 (.text "ayx")).2.1,
      x.rule = 3 ∧ ∃ o,
        (Task.replay ⟨crossed, .ofInput (.text "ayx"), .replays⟩ x.active x.rule x.position x.entry
            ⟨.empty, .here 0, []⟩).1.result? = some o ∧
        (Task.apply ⟨crossed, .ofInput (.text "ayx"), .replays⟩ 17 [] x.rule x.position
            ⟨.empty, .here 0, []⟩).1.result? = some o := by
  have hreplayed : ∃ x ∈ ((ofGrammar crossed {}).run .replays [] 0 (.text "ayx")).2.1,
      x.rule = 3 := by
    decide +kernel
  obtain ⟨x, hx, hrule⟩ := hreplayed
  refine ⟨x, hx, hrule, replay_eq_apply_nil ofParts_crossed (by decide)
    (noLimit_of_check (by decide +kernel)) hx ?_ ?_ (by decide) _ _ _⟩
  · rw [hrule]
    intro a b ha hb _ _
    rcases uses_crossed_n ha with heq | ⟨_, _, heq⟩ <;> cases heq
    rcases uses_crossed_n hb with heq | ⟨_, _, heq⟩ <;> cases heq
    rfl
  · intro id a min _ hatom
    simpa [ofGrammar, crossed] using Array.mem_of_getElem? hatom

end Parser

end Seedling
