import Seedling.Proofs.Grammar.Building
import Seedling.Proofs.Parse.Failure
import Seedling.Proofs.Parse.Reuse

/-!
Chains have the meaning of the series of two that they are written for. To an observer of rules
the evaluation of atoms is an algebra that does not see how series are nested: a match is handed
on from item to item in either case, and failures of alternatives are joined, which can be done
in any grouping. So a grammar whose chains are flattened and one where they are not give the
same results and the same traces.
-/

namespace Seedling

open Unlimited

abbrev Evaluated (ω : Type) := Nat → Array ParseTree → Session ω → Outcome Matched × Session ω

section Series

variable {ω : Type}

def inOrder : List (Evaluated ω) → Nat → Array ParseTree → Option Nat → Session ω →
    Outcome Matched × Session ω
  | [], p, out, splice, s => (.ok ⟨p, out, splice⟩, s)
  | item :: rest, p, out, splice, s =>
      proceed (fun m => inOrder rest m.stop m.out (m.splice.or splice))
        (fun f s => (.backtrack f, s))
        (item p out s)

/-- The first of the items that matches; `failure` joins the failures of those before. -/
def firstOf : List (Evaluated ω) → Nat → Array ParseTree → Failure → Session ω →
    Outcome Matched × Session ω
  | [], _, _, failure, s => (.backtrack failure, s)
  | item :: rest, p, out, failure, s =>
      proceed (fun m s => (.ok m, s))
        (fun f => firstOf rest p out (failure.combine f)) (item p out s)

variable (p : Nat) (out : Array ParseTree) (s : Session ω)

theorem inOrder_append (xs ys : List (Evaluated ω)) (splice : Option Nat) :
    inOrder (xs ++ ys) p out splice s =
      proceed (fun m => inOrder ys m.stop m.out m.splice) (fun f s => (.backtrack f, s))
        (inOrder xs p out splice s) := by
  induction xs generalizing p out splice s with
  | nil => rfl
  | cons x xs ih =>
      rw [List.cons_append, inOrder, inOrder]
      obtain ⟨m | f | e, s'⟩ := x p out s
      · exact ih m.stop m.out s' (m.splice.or splice)
      · rfl
      · rfl

theorem inOrder_splice (xs : List (Evaluated ω)) (splice : Option Nat) :
    inOrder xs p out splice s =
      proceed (fun m s => (.ok { m with splice := m.splice.or splice }, s))
        (fun f s => (.backtrack f, s)) (inOrder xs p out none s) := by
  induction xs generalizing p out splice s with
  | nil => rfl
  | cons x xs ih =>
      rw [inOrder, inOrder]
      obtain ⟨m | f | e, s'⟩ := x p out s
      · show inOrder xs m.stop m.out (m.splice.or splice) s' =
          proceed _ _ (inOrder xs m.stop m.out (m.splice.or none) s')
        rw [ih, ih _ _ _ (m.splice.or none)]
        obtain ⟨m' | f | e, s''⟩ := inOrder xs m.stop m.out none s'
        · simp [proceed, Option.or_assoc]
        · rfl
        · rfl
      · rfl
      · rfl

theorem firstOf_append (xs ys : List (Evaluated ω)) (failure : Failure) :
    firstOf (xs ++ ys) p out failure s =
      proceed (fun m s => (.ok m, s))
        (fun f => firstOf ys p out f) (firstOf xs p out failure s) := by
  induction xs generalizing failure s with
  | nil => rfl
  | cons x xs ih =>
      rw [List.cons_append, firstOf, firstOf]
      obtain ⟨m | f | e, s'⟩ := x p out s
      · rfl
      · exact ih s' (failure.combine f)
      · rfl

theorem firstOf_failure (xs : List (Evaluated ω)) {failure : Failure}
    (hfailure : .here p ≤ failure) :
    firstOf xs p out failure s =
      proceed (fun m s => (.ok m, s)) (fun f s => (.backtrack (failure.combine f), s))
        (firstOf xs p out (.here p) s) := by
  induction xs generalizing failure s with
  | nil =>
      show (Outcome.backtrack failure, s) = (.backtrack (failure ⊔ .here p), s)
      rw [sup_eq_left.2 hfailure]
  | cons x xs ih =>
      rw [firstOf, firstOf]
      obtain ⟨m | f | e, s'⟩ := x p out s
      · rfl
      · show firstOf xs p out (failure ⊔ f) s' = proceed _ _ (firstOf xs p out (.here p ⊔ f) s')
        rw [ih s' (le_sup_of_le_left hfailure), ih s' (le_sup_left (a := Failure.here p) (b := f))]
        obtain ⟨m' | f' | e, s''⟩ := firstOf xs p out (.here p) s'
        · rfl
        · show (Outcome.backtrack (failure ⊔ f ⊔ f'), s'') =
            (.backtrack (failure ⊔ (.here p ⊔ f ⊔ f')), s'')
          rw [sup_assoc, sup_assoc, ← sup_assoc failure (.here p), sup_eq_left.2 hfailure]
        · rfl
      · rfl

theorem inOrder_flat (pre inner post : List (Evaluated ω)) (splice : Option Nat) :
    inOrder (pre ++ (fun p out s => inOrder inner p out none s) :: post) p out splice s =
      inOrder (pre ++ inner ++ post) p out splice s := by
  rw [List.append_assoc, inOrder_append, inOrder_append]
  congr 1
  funext m s
  rw [inOrder, inOrder_append, inOrder_splice m.stop m.out s inner m.splice]
  obtain ⟨_ | _ | _, _⟩ := inOrder inner m.stop m.out none s <;> rfl

theorem firstOf_flat (pre inner post : List (Evaluated ω)) {failure : Failure}
    (hfailure : .here p ≤ failure) :
    firstOf (pre ++ (fun p out s => firstOf inner p out (.here p) s) :: post) p out failure s =
      firstOf (pre ++ inner ++ post) p out failure s := by
  induction pre generalizing failure s with
  | nil =>
      rw [List.nil_append, List.nil_append, firstOf, firstOf_append,
        firstOf_failure p out s inner hfailure]
      obtain ⟨_ | _ | _, _⟩ := firstOf inner p out (.here p) s <;> rfl
  | cons x pre ih =>
      rw [List.cons_append, List.cons_append, List.cons_append, firstOf, firstOf]
      obtain ⟨m | f | e, s'⟩ := x p out s
      · rfl
      · exact ih s' (le_sup_of_le_left hfailure)
      · rfl

end Series

/-! ### Evaluation as an algebra -/

/-- Takes notice of actions on rules only. -/
def Observer.OfRules {ω : Type} (observer : Observer ω) : Prop :=
  ∀ active memo event log, (∀ r p action, event ≠ .rule r p action) →
    observer.note active memo event log = log

theorem Observer.silent_ofRules : Observer.silent.OfRules := fun _ _ _ _ _ => rfl

theorem Observer.tracer_ofRules (g : Grammar) : (Observer.tracer g).OfRules := by
  intro active memo event log hevent
  cases event with
  | rule r p action => exact absurd rfl (hevent r p action)
  | tries | tried | atom => rfl

/-- A grammar of one atom and no rules. -/
def Grammar.lone (atom : Atom) : Grammar where
  atoms := #[atom]
  rules := #[]
  root := 0
  matchers := #[match atom with
    | .pattern pattern => patternMatcher pattern
    | _ => none]

section Evaluation

variable {ω : Type}

def evaluating (subject : Subject) (observer : Observer ω) (apply : Apply ω) :
    Algebra (Evaluated ω) where
  leaf
    | .rule r => fun p out s =>
        onMatch (fun found => ⟨found.stop, out.push found.tree, none⟩) (apply r p s)
    | atom => Task.terminal ⟨.lone atom, subject, observer⟩ 0
  series
    | .sequence, items => fun p out s => inOrder items p out none s
    | .choice, items => fun p out s => firstOf items p out (.here p) s
  wrap
    | .repetition min max, item => fun p out s =>
        Task.repetition (fun _ => item) 0 min max (subject.length - p + 1) 0 p out none s
    | .lookahead positive, item => Task.lookahead (fun _ => item) 0 positive
    | .discard, item => fun p out s => onMatch (fun m => ⟨m.stop, out, none⟩) (item p #[] s)
    | .splice, item => fun p out s =>
        onMatch (fun m => { m with
          splice := if m.out.size = out.size + 1 then some out.size else m.splice }) (item p out s)

theorem evaluating_flat (subject : Subject) (observer : Observer ω) (apply : Apply ω) :
    (evaluating subject observer apply).Flat := by
  intro k pre inner post
  funext p out s
  cases k with
  | sequence => exact inOrder_flat p out s pre inner post none
  | choice => exact firstOf_flat p out s pre inner post (le_refl _)

variable {g : Grammar} {subject : Subject} {observer : Observer ω}

theorem Session.note_eq (hobserver : observer.OfRules) (s : Session ω) (active : List Call)
    {event : Event}
    (hevent : ∀ r p action, event ≠ .rule r p action) : s.note observer active event = s := by
  rw [Session.note, hobserver _ _ _ _ hevent]

theorem noteAtom_id (hobserver : observer.OfRules) (active : List Call) (id : AtomId) (p : Nat)
    (result : Outcome Matched × Session ω) :
    Task.noteAtom ⟨g, subject, observer⟩ active id p result = result := by
  rw [noteAtom_eq]
  obtain ⟨_ | _ | _, s⟩ := result
  · exact congrArg _ (Session.note_eq hobserver s active (by simp))
  · exact congrArg _ (Session.note_eq hobserver s active (by simp))
  · rfl

theorem sequence_eq_inOrder (eval : Eval ω) (atoms : List AtomId) (p : Nat) (out : Array ParseTree)
    (splice : Option Nat) (s : Session ω) :
    Task.sequence eval atoms p out splice s = inOrder (atoms.map eval) p out splice s := by
  induction atoms generalizing p out splice s with
  | nil => rfl
  | cons a rest ih =>
      rw [sequence_cons, List.map_cons, inOrder]
      congr 1
      funext m s
      exact ih m.stop m.out _ s

theorem choice_eq_firstOf (hobserver : observer.OfRules) (eval : Eval ω) (active : List Call)
    (id : AtomId) (p : Nat) (out : Array ParseTree) (index : Nat) (atoms : List AtomId)
    (failure : Failure) (s : Session ω) :
    Task.choice ⟨g, subject, observer⟩ eval active id p out index atoms failure s =
      firstOf (atoms.map eval) p out failure s := by
  induction atoms generalizing index failure s with
  | nil => rfl
  | cons a rest ih =>
      have halternative : Task.alternative ⟨g, subject, observer⟩ eval active id index a p out s =
          eval a p out s := by
        rw [alternative_eq, Session.note_eq hobserver s active (by simp)]
        obtain ⟨_ | _ | _, s'⟩ := eval a p out s
        · exact congrArg _ (Session.note_eq hobserver s' active (by simp))
        · exact congrArg _ (Session.note_eq hobserver s' active (by simp))
        · rfl
      rw [choice_cons, halternative, List.map_cons, firstOf]
      congr 1
      funext f s
      exact ih (index + 1) _ s

theorem repetition_eq (eval : Eval ω) (a : AtomId) (min : Nat) (max : Option Nat)
    (rounds count p : Nat) (out : Array ParseTree) (splice : Option Nat) (s : Session ω) :
    Task.repetition eval a min max rounds count p out splice s =
      Task.repetition (fun _ => eval a) 0 min max rounds count p out splice s := by
  induction rounds generalizing count p out splice s with
  | zero => rfl
  | succ rounds ih => simp only [Task.repetition, ih]

theorem label_eq_lone {atom : Atom} {id : AtomId} (hatom : g.atoms[id]? = some atom) :
    g.label id = (Grammar.lone atom).label 0 := by
  have hlone : (Grammar.lone atom).atoms[0]? = some atom := rfl
  rw [Grammar.label, Grammar.label, hatom, hlone]

theorem matchTerminal_eq_lone {atom : Atom} (hg : g.Compiled) {id : AtomId}
    (hatom : g.atoms[id]? = some atom) (p : Nat) :
    subject.matchTerminal g id p = subject.matchTerminal (.lone atom) 0 p := by
  have hlone : (Grammar.lone atom).atoms[0]? = some atom := rfl
  unfold Subject.matchTerminal
  rw [hatom, hlone, label_eq_lone hatom]
  cases atom with
  | pattern pattern =>
      have hmatcher : (Grammar.lone (.pattern pattern)).matcher? 0 = patternMatcher pattern := rfl
      rw [hg.compiled hatom, hmatcher]
  | rule | literal | token | sequence | choice | repetition | lookahead | discard | splice =>
      cases subject <;> rfl

theorem terminal_eq_lone {atom : Atom} (hg : g.Compiled) {id : AtomId}
    (hatom : g.atoms[id]? = some atom) :
    Task.terminal ⟨g, subject, observer⟩ id = Task.terminal ⟨.lone atom, subject, observer⟩ 0 := by
  funext p out s
  rw [Task.terminal, Task.terminal, matchTerminal_eq_lone hg hatom, label_eq_lone hatom]

/-- An observer of rules sees the evaluation of atoms as the algebra says. -/
theorem computes_eval (hg : g.Compiled) (hobserver : observer.OfRules) (apply : Apply ω)
    (active : List Call) : (evaluating subject observer apply).Computes (g.atoms[·]?)
      (Task.eval ⟨g, subject, observer⟩ apply active g.atoms.size) := by
  refine Algebra.computes_of_bounded hg.toWellFormed fun bound id atom hatom => ?_
  funext p out s
  rw [Task.eval, hatom]
  dsimp only
  rw [noteAtom_id hobserver]
  cases atom with
  | rule r => exact operator_rule _ _ _ _ _ p out s r
  | literal | pattern | token =>
      exact congrFun (congrFun (congrFun (terminal_eq_lone hg hatom) p) out) s
  | sequence atoms => exact sequence_eq_inOrder _ atoms p out none s
  | choice atoms => exact choice_eq_firstOf hobserver _ active id p out 0 atoms (.here p) s
  | repetition a min max => exact repetition_eq _ a min max _ 0 p out none s
  | lookahead a positive => rfl
  | discard a => exact operator_discard _ _ _ _ _ p out s a
  | splice a => exact operator_splice _ _ _ _ _ p out s a

end Evaluation

/-! ### Grammars that are alike -/

namespace Grammar.Alike

variable {ω : Type} {g g' : Grammar} {subject : Subject} {observer : Observer ω}

theorem body_eq (h : Alike g g') (hobserver : observer.OfRules) (apply : Apply ω)
    (active : List Call)
    (r : RuleId) (p : Nat) : Task.body ⟨g, subject, observer⟩ apply active r p =
      Task.body ⟨g', subject, observer⟩ apply active r p := by
  funext s
  rcases h.rule_cases r with ⟨hrule, hrule'⟩ | ⟨rule, rule', hrule, hrule', hname, hbody⟩
  · rw [Task.body, Task.body, hrule, hrule']
  · have heval : Task.eval ⟨g, subject, observer⟩ apply active g.atoms.size rule.body =
        Task.eval ⟨g', subject, observer⟩ apply active g'.atoms.size rule'.body :=
      hbody.value_eq (evaluating_flat subject observer apply)
        (computes_eval h.left hobserver apply active)
        (computes_eval h.right hobserver apply active)
    rw [Seedling.body_eq _ _ _ _ _ hrule, Seedling.body_eq _ _ _ _ _ hrule', hname, heval]

theorem grow_eq (active : List Call) (r : RuleId) (p : Nat)
    (body : Session ω → Outcome Found × Session ω)
    (rounds : Nat) (s : Session ω) : Task.grow ⟨g, subject, observer⟩ active r p body rounds s =
      Task.grow ⟨g', subject, observer⟩ active r p body rounds s := by
  induction rounds generalizing s with
  | zero => rfl
  | succ rounds ih =>
      have hsettle : Task.settle ⟨g, subject, observer⟩ active r p (body s) =
          Task.settle ⟨g', subject, observer⟩ active r p (body s) := rfl
      rw [Task.grow, Task.grow, hsettle]
      split
      · rfl
      · exact ih _

theorem apply_eq (h : Alike g g') (hobserver : observer.OfRules) (room : Nat) (active : List Call) :
    Task.apply ⟨g, subject, observer⟩ room active =
      Task.apply ⟨g', subject, observer⟩ room active := by
  induction room generalizing active with
  | zero => rfl
  | succ room ih =>
      funext r p s
      rw [Task.apply_succ, Task.apply_succ, ih, h.body_eq hobserver]
      cases s.memo.get? p r with
      | some e => rfl
      | none => exact grow_eq active r p _ _ _

variable (config : Config) (input : Input)

theorem run_eq (h : Alike g g') (hobserver : observer.OfRules) (log : ω) (rule : RuleId) :
    ((Parser.ofGrammar g config).run observer log rule input).1 =
        ((Parser.ofGrammar g' config).run observer log rule input).1 ∧
      ((Parser.ofGrammar g config).run observer log rule input).2.1 =
        ((Parser.ofGrammar g' config).run observer log rule input).2.1 := by
  have hattempt : attempt g input observer log rule config.maxDepth =
      attempt g' input observer log rule config.maxDepth := by
    rw [attempt, attempt, h.apply_eq hobserver]
  have hmode : Parser.refusal g config input = Parser.refusal g' config input := by
    rw [Parser.refusal, Parser.refusal, h.mode]
  cases hrefusal : (Parser.refusal g' config input) with
  | some e =>
      have hg : Parser.refusal (Parser.ofGrammar g config).grammar config input = some e :=
        hmode.trans hrefusal
      have hg' : Parser.refusal (Parser.ofGrammar g' config).grammar config input = some e :=
        hrefusal
      rw [Parser.run_refused hg, Parser.run_refused hg']
      exact ⟨rfl, rfl⟩
  | none =>
      have hg : Parser.refusal (Parser.ofGrammar g config).grammar config input = none :=
        hmode.trans hrefusal
      have hg' : Parser.refusal (Parser.ofGrammar g' config).grammar config input = none := hrefusal
      rw [Parser.run_eq_attempt hg, Parser.run_eq_attempt hg']
      exact ⟨congrArg (Parser.conclude (.ofInput input)) hattempt, congrArg (·.2.log) hattempt⟩

end Grammar.Alike

/-- What a grammar can be seen to do with an input under some limits: the result of a parse from
its start rule, the same with a trace, and the results of parses from rules by name. -/
@[ext] structure Behaviour where
  parse : Except ParseError ParseTree
  traced : Except ParseError ParseTree × List TraceEntry
  parseRule : String → Except ParseError ParseTree

def Grammar.behaviour (g : Grammar) (config : Config) (input : Input) : Behaviour where
  parse := ((Parser.ofGrammar g config).parse input).1
  traced := (((Parser.ofGrammar g config).parseTraced input).1,
    ((Parser.ofGrammar g config).parseTraced input).2.1)
  parseRule name := ((Parser.ofGrammar g config).parseRule name input).1

theorem Grammar.Alike.behaviour_eq {g g' : Grammar} (h : Alike g g') :
    g.behaviour = g'.behaviour := by
  funext config input
  have hsilent := fun rule => (h.run_eq config input Observer.silent_ofRules () rule).1
  have htraced := h.run_eq config input (Observer.tracer_ofRules g) [] g.root
  have htracer : (Parser.ofGrammar g' config).run (.tracer g) [] g.root input =
      (Parser.ofGrammar g' config).run (.tracer g') [] g'.root input := by
    rw [h.root, Observer.tracer, Observer.tracer, h.ruleName_eq]
  refine Behaviour.ext ?_ ?_ (funext fun name => ?_)
  · exact (hsilent g.root).trans (by rw [h.root]; rfl)
  · rw [behaviour, behaviour, Parser.parseTraced_eq, Parser.parseTraced_eq]
    refine Prod.ext ?_ (congrArg List.reverse ?_)
    · exact htraced.1.trans (by rw [htracer]; rfl)
    · exact htraced.2.trans (by rw [htracer]; rfl)
  · show (Parser.parseRule _ name input).1 = (Parser.parseRule _ name input).1
    rw [Parser.parseRule, Parser.parseRule]
    dsimp only [Parser.ofGrammar]
    rw [Grammar.ruleId?, h.findIdx?_eq, ← Grammar.ruleId?]
    cases g'.ruleId? name with
    | none => rfl
    | some rule => exact hsilent rule

/-- Rules mean the same with chains as with a series of two for each link of a chain. The
grammars that are built give the same results and the same traces on every input under all
limits, and if one cannot be built, then the other fails with the same error. -/
theorem build_unchained (rules : List (String × ParsingExpr)) (start : Option String) :
    (Builder.ofRules rules start).build.map Grammar.behaviour =
      (Builder.ofRules (Builder.unchained rules) start).build.map Grammar.behaviour :=
  (Builder.matching_ofRules rules start).build_concur.map_eq fun _ _ halike => halike.behaviour_eq

end Seedling
