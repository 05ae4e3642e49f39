import Seedling.Proofs.Parse.Application

/-!
Evaluation without limits, as a relation. Its loops go on for as long as they take and its
applications nest as deep as they come; and what it looks up it relies on. An evaluation that never
ends comes to nothing, nor does one that would need an atom, a rule or an entry that is not there.

Main statement: evaluation with limits, unless it is given up, comes to what evaluation without them
comes to. So no limit takes part in what is parsed, and nothing that is looked up is missing.
-/

namespace Seedling

namespace Unlimited

variable {ω : Type}

/-- An entry can answer: a final one has its match or its failure, and any other is in progress. -/
def canAnswer (active : List Call) (rule : RuleId) (pos : Nat) (entry : Entry) : Bool :=
  match entry.state with
  | .matched => entry.result.isSome
  | .failed => entry.failure.isSome
  | _ => ⟨rule, pos⟩ ∈ active

/-- What becomes of a match; a failure stays what it is. -/
def onMatch {α β : Type} (k : α → β) : Outcome α × Session ω → Outcome β × Session ω
  | (.ok a, s) => (.ok (k a), s)
  | (.backtrack f, s) => (.backtrack f, s)
  | (.abort e, s) => (.abort e, s)

/-- What an evaluation is of: a piece of a rule's body, or the rule. -/
inductive Kind where
  | piece
  | rule

abbrev Kind.Match : Kind → Type
  | .piece => Matched
  | .rule => Found

/-- What there is to evaluate. -/
inductive Job : Kind → Type where
  | atom (id : AtomId) (pos : Nat) (out : Array ParseTree) : Job .piece
  | operator (id : AtomId) (atom : Atom) (pos : Nat) (out : Array ParseTree) : Job .piece
  | items (atoms : List AtomId) (pos : Nat) (out : Array ParseTree) (splice : Option Nat) :
      Job .piece
  | alternatives (id : AtomId) (pos : Nat) (out : Array ParseTree) (index : Nat)
      (atoms : List AtomId) (failure : Failure) : Job .piece
  | run (atom : AtomId) (min : Nat) (max : Option Nat) (count pos : Nat) (out : Array ParseTree)
      (splice : Option Nat) : Job .piece
  | body (rule : RuleId) (pos : Nat) : Job .rule
  | growth (rule : RuleId) (pos : Nat) : Job .rule
  | application (rule : RuleId) (pos : Nat) : Job .rule

/-- What an evaluation inside the applications `active` comes to. The steps are those of
evaluation with limits, but neither rounds nor depth are counted, and nothing is given up. -/
inductive Performs (task : Task ω) :
    {k : Kind} → List Call → Job k → Session ω → Outcome k.Match × Session ω → Prop where
  | atom {active id atom pos out s result} :
      task.grammar.atoms[id]? = some atom →
        Performs task active (.operator id atom pos out) s result →
        Performs task active (.atom id pos out) s (task.noteAtom active id pos result)
  | rule {active id rule pos out s result} :
      Performs task active (.application rule pos) s result →
        Performs task active (.operator id (.rule rule) pos out) s
          (onMatch (fun found => ⟨found.stop, out.push found.tree, none⟩) result)
  | literal {active id text pos out s} :
      Performs task active (.operator id (.literal text) pos out) s (task.terminal id pos out s)
  | pattern {active id pattern pos out s} :
      Performs task active (.operator id (.pattern pattern) pos out) s (task.terminal id pos out s)
  | token {active id name pos out s} :
      Performs task active (.operator id (.token name) pos out) s (task.terminal id pos out s)
  | sequence {active id atoms pos out s result} :
      Performs task active (.items atoms pos out none) s result →
        Performs task active (.operator id (.sequence atoms) pos out) s result
  | choice {active id atoms pos out s result} :
      Performs task active (.alternatives id pos out 0 atoms (.here pos)) s result →
        Performs task active (.operator id (.choice atoms) pos out) s result
  | repetition {active id a min max pos out s result} :
      Performs task active (.run a min max 0 pos out none) s result →
        Performs task active (.operator id (.repetition a min max) pos out) s result
  | lookahead {active id a positive pos out s result} :
      Performs task active (.atom a pos #[]) s result →
        Performs task active (.operator id (.lookahead a positive) pos out) s
          (Task.lookahead (fun _ _ _ _ => result) a positive pos out s)
  | discard {active id a pos out s result} :
      Performs task active (.atom a pos #[]) s result →
        Performs task active (.operator id (.discard a) pos out) s
          (onMatch (fun m => ⟨m.stop, out, none⟩) result)
  | splice {active id a pos out s result} :
      Performs task active (.atom a pos out) s result →
        Performs task active (.operator id (.splice a) pos out) s
          (onMatch (fun m => { m with
            splice := if m.out.size = out.size + 1 then some out.size else m.splice }) result)
  | done {active pos out splice s} :
      Performs task active (.items [] pos out splice) s (.ok ⟨pos, out, splice⟩, s)
  | item {active a rest pos out splice s m s₁ result} :
      Performs task active (.atom a pos out) s (.ok m, s₁) →
        Performs task active (.items rest m.stop m.out (m.splice.or splice)) s₁ result →
        Performs task active (.items (a :: rest) pos out splice) s result
  | broken {active a rest pos out splice s f s₁} :
      Performs task active (.atom a pos out) s (.backtrack f, s₁) →
        Performs task active (.items (a :: rest) pos out splice) s (.backtrack f, s₁)
  | exhausted {active id pos out index failure s} :
      Performs task active (.alternatives id pos out index [] failure) s (.backtrack failure, s)
  | taken {active id pos out index a rest failure s m s₁} :
      Performs task active (.atom a pos out) (s.note task.observer active (.tries id index pos))
          (.ok m, s₁) →
        Performs task active (.alternatives id pos out index (a :: rest) failure) s
          (.ok m, s₁.note task.observer active (.tried id index pos (some m.stop)))
  | passed {active id pos out index a rest failure s f s₁ result} :
      Performs task active (.atom a pos out) (s.note task.observer active (.tries id index pos))
          (.backtrack f, s₁) →
        Performs task active (.alternatives id pos out (index + 1) rest (failure.combine f))
          (s₁.note task.observer active (.tried id index pos none)) result →
        Performs task active (.alternatives id pos out index (a :: rest) failure) s result
  | full {active a min max count pos out splice s} :
      isFull max count = true →
        Performs task active (.run a min max count pos out splice) s (.ok ⟨pos, out, splice⟩, s)
  | more {active a min max count pos out splice s m s₁ result} :
      isFull max count = false →
        Performs task active (.atom a pos out) s (.ok m, s₁) → pos < m.stop →
        Performs task active (.run a min max (count + 1) m.stop m.out (m.splice.or splice)) s₁
          result →
        Performs task active (.run a min max count pos out splice) s result
  /-- A match that does not move on is the last. -/
  | empty {active a min max count pos out splice s m s₁} :
      isFull max count = false →
        Performs task active (.atom a pos out) s (.ok m, s₁) → ¬ pos < m.stop →
        Performs task active (.run a min max count pos out splice) s
          (.ok { m with splice := m.splice.or splice }, s₁)
  | enough {active a min max count pos out splice s f s₁} :
      isFull max count = false →
        Performs task active (.atom a pos out) s (.backtrack f, s₁) → ¬ count < min →
        Performs task active (.run a min max count pos out splice) s (.ok ⟨pos, out, splice⟩, s₁)
  | tooFew {active a min max count pos out splice s f s₁} :
      isFull max count = false →
        Performs task active (.atom a pos out) s (.backtrack f, s₁) → count < min →
        Performs task active (.run a min max count pos out splice) s (.backtrack f, s₁)
  | body {active r rule pos s result} :
      task.grammar.rules[r]? = some rule →
        Performs task active (.atom rule.body pos #[]) s result →
        Performs task active (.body r pos) s
          (onMatch (fun m =>
            ⟨(m.splice.bind (m.out[·]?)).getD (.node rule.name m.out.toList), m.stop⟩) result)
  /-- After its body a rule still has its entry. -/
  | settled {active rule pos s result entry outcome s'} :
      Performs task (⟨rule, pos⟩ :: active) (.body rule pos) s result →
        result.2.memo.get? pos rule = some entry →
        task.settle active rule pos result = .done outcome s' →
        Performs task active (.growth rule pos) s (outcome, s')
  | grown {active rule pos s result entry s' result'} :
      Performs task (⟨rule, pos⟩ :: active) (.body rule pos) s result →
        result.2.memo.get? pos rule = some entry →
        task.settle active rule pos result = .again s' →
        Performs task active (.growth rule pos) s' result' →
        Performs task active (.growth rule pos) s result'
  /-- An entry that is found can answer. -/
  | replayed {active rule pos s entry} :
      s.memo.get? pos rule = some entry → canAnswer active rule pos entry = true →
        Performs task active (.application rule pos) s
          (task.replay active rule pos entry { s with memo := (s.memo.lookup pos rule).2 })
  | entered {active rule pos s result} :
      s.memo.get? pos rule = none →
        Performs task active (.growth rule pos)
          (task.entered active rule pos { s with memo := (s.memo.lookup pos rule).2 }) result →
        Performs task active (.application rule pos) s result

theorem Performs.unique {task : Task ω} {k : Kind} {active : List Call} {job : Job k}
    {s : Session ω} {result result' : Outcome k.Match × Session ω}
    (h : Performs task active job s result) (h' : Performs task active job s result') :
    result = result' := by
  induction h with
  | atom hatom _ ih =>
      cases h' with
      | atom hatom' h' =>
          cases hatom.symm.trans hatom'
          rw [ih h']
  | rule _ ih =>
      cases h' with
      | rule h' => rw [ih h']
  | literal | pattern | token | done | exhausted =>
      cases h'
      rfl
  | sequence _ ih =>
      cases h' with
      | sequence h' => exact ih h'
  | choice _ ih =>
      cases h' with
      | choice h' => exact ih h'
  | repetition _ ih =>
      cases h' with
      | repetition h' => exact ih h'
  | lookahead _ ih =>
      cases h' with
      | lookahead h' => rw [ih h']
  | discard _ ih =>
      cases h' with
      | discard h' => rw [ih h']
  | splice _ ih =>
      cases h' with
      | splice h' => rw [ih h']
  | item _ _ ihx ih =>
      cases h' with
      | item hx' h' =>
          cases ihx hx'
          exact ih h'
      | broken hx' => cases ihx hx'
  | broken _ ihx =>
      cases h' with
      | item hx' => cases ihx hx'
      | broken hx' => exact ihx hx'
  | taken _ ihx =>
      cases h' with
      | taken hx' =>
          cases ihx hx'
          rfl
      | passed hx' => cases ihx hx'
  | passed _ _ ihx ih =>
      cases h' with
      | taken hx' => cases ihx hx'
      | passed hx' h' =>
          cases ihx hx'
          exact ih h'
  | full hfull =>
      cases h' with
      | full => rfl
      | more hfull' | empty hfull' | enough hfull' | tooFew hfull' =>
          cases hfull.symm.trans hfull'
  | more hfull _ hlt _ ihx ih =>
      cases h' with
      | full hfull' => cases hfull.symm.trans hfull'
      | more _ hx' _ h' =>
          cases ihx hx'
          exact ih h'
      | empty _ hx' hle =>
          cases ihx hx'
          exact absurd hlt hle
      | enough _ hx' | tooFew _ hx' => cases ihx hx'
  | empty hfull _ hle ihx =>
      cases h' with
      | full hfull' => cases hfull.symm.trans hfull'
      | more _ hx' hlt =>
          cases ihx hx'
          exact absurd hlt hle
      | empty _ hx' =>
          cases ihx hx'
          rfl
      | enough _ hx' | tooFew _ hx' => cases ihx hx'
  | enough hfull _ hcount ihx =>
      cases h' with
      | full hfull' => cases hfull.symm.trans hfull'
      | more _ hx' | empty _ hx' => cases ihx hx'
      | enough _ hx' =>
          cases ihx hx'
          rfl
      | tooFew _ _ hcount' => exact absurd hcount' hcount
  | tooFew hfull _ hcount ihx =>
      cases h' with
      | full hfull' => cases hfull.symm.trans hfull'
      | more _ hx' | empty _ hx' => cases ihx hx'
      | enough _ _ hcount' => exact absurd hcount hcount'
      | tooFew _ hx' => exact ihx hx'
  | body hrule _ ih =>
      cases h' with
      | body hrule' h' =>
          cases hrule.symm.trans hrule'
          rw [ih h']
  | settled _ _ hsettle ihx =>
      cases h' with
      | settled hx' _ hsettle' =>
          cases ihx hx'
          cases hsettle.symm.trans hsettle'
          rfl
      | grown hx' _ hsettle' =>
          cases ihx hx'
          cases hsettle.symm.trans hsettle'
  | grown _ _ hsettle _ ihx ih =>
      cases h' with
      | settled hx' _ hsettle' =>
          cases ihx hx'
          cases hsettle.symm.trans hsettle'
      | grown hx' _ hsettle' h' =>
          cases ihx hx'
          cases hsettle.symm.trans hsettle'
          exact ih h'
  | replayed hentry _ =>
      cases h' with
      | replayed hentry' =>
          cases hentry.symm.trans hentry'
          rfl
      | entered hnone => cases hentry.symm.trans hnone
  | entered hnone _ ih =>
      cases h' with
      | replayed hentry => cases hnone.symm.trans hentry
      | entered _ h' => exact ih h'

/-- What a round comes to, by the entry that the rule has after its body. -/
inductive RoundsTo (task : Task ω) (active : List Call) (r : RuleId) (p : Nat) (entry : Entry) :
    Outcome Found × Session ω → Task.Round ω → Prop where
  | abort {e s} : RoundsTo task active r p entry (.abort e, s) (.done (.abort e) s)
  /-- A seed wins over a failure. -/
  | passed {f seed s} : entry.found? = some seed →
      RoundsTo task active r p entry (.backtrack f, s) (task.accept active r p entry seed s)
  | failed {f s} : entry.found? = none →
      RoundsTo task active r p entry (.backtrack f, s) (.done (.backtrack f)
        (task.put active r p { entry with state := .failed, failure := some f } .failed s))
  /-- A seed wins over a match that is no longer. -/
  | outgrown {found seed s} : entry.found? = some seed → found.stop ≤ seed.stop →
      RoundsTo task active r p entry (.ok found, s) (task.accept active r p entry seed s)
  | matched {found s} : entry.found? = none → entry.isGrowing = false →
      RoundsTo task active r p entry (.ok found, s) (task.accept active r p entry found s)
  | grown {found s} : entry.isGrowing = true → Outgrows entry.found? (some found) →
      RoundsTo task active r p entry (.ok found, s) (task.plant active r p entry found s)

end Unlimited

open Unlimited

theorem Task.roundsTo_of_settle {ω : Type} {task : Task ω} {active : List Call} {r : RuleId}
    {p : Nat} {entry : Entry} {result : Outcome Found × Session ω} {round : Task.Round ω}
    (h : result.2.memo.get? p r = some entry) (hround : task.settle active r p result = round) :
    RoundsTo task active r p entry result round := by
  obtain ⟨outcome, s⟩ := result
  subst hround
  cases outcome with
  | abort e =>
      simp only [settle, h]
      exact .abort
  | backtrack f =>
      cases hfound : entry.found? with
      | some seed =>
          simp only [settle, h, hfound]
          exact .passed hfound
      | none =>
          simp only [settle, h, hfound]
          exact .failed hfound
  | ok found =>
      cases hgrowing : entry.isGrowing with
      | false =>
          simp only [settle, h, hgrowing]
          refine .matched ?_ hgrowing
          have hseed : entry.result = none := by
            simpa [Entry.hasSeed] using (Bool.or_eq_false_iff.1 hgrowing).2
          rw [Entry.found?, hseed, Option.map_none]
      | true =>
          cases hfound : entry.found? with
          | some seed =>
              simp only [settle, h, hgrowing, hfound, if_true]
              split
              · rename_i hle
                exact .outgrown hfound hle
              · rename_i hlt
                refine .grown hgrowing ⟨found, rfl, fun f₀ hf₀ => ?_⟩
                cases hfound.symm.trans hf₀
                exact Nat.lt_of_not_le hlt
          | none =>
              simp only [settle, h, hgrowing, hfound, if_true]
              refine .grown hgrowing ⟨found, rfl, fun f₀ hf₀ => ?_⟩
              cases hfound.symm.trans hf₀

/-- Unless it was given up, a result is one that evaluation without limits comes to. -/
def Agrees {α ω : Type} (comesTo : Outcome α × Session ω → Prop) : Outcome α × Session ω → Prop
  | (.ok a, s) => comesTo (.ok a, s)
  | (.backtrack f, s) => comesTo (.backtrack f, s)
  | (.abort _, _) => True

section Agreement

variable {α β ω : Type} {P Q : Outcome α × Session ω → Prop} {R : Outcome β × Session ω → Prop}
  {result : Outcome α × Session ω}

theorem agrees_of_comesTo (h : P result) : Agrees P result := by
  obtain ⟨_ | _ | _, s⟩ := result
  · exact h
  · exact h
  · trivial

theorem Agrees.map (h : Agrees P result) (k : Outcome α × Session ω → Outcome β × Session ω)
    (hPR : ∀ result, P result → R (k result)) (hk : ∀ e s, k (.abort e, s) = (.abort e, s)) :
    Agrees R (k result) := by
  obtain ⟨_ | _ | _, s⟩ := result
  · exact agrees_of_comesTo (hPR _ h)
  · exact agrees_of_comesTo (hPR _ h)
  · rw [hk]
    trivial

theorem Agrees.imp (h : Agrees P result) (hPQ : ∀ result, P result → Q result) : Agrees Q result :=
  h.map id hPQ fun _ _ => rfl

end Agreement

/-! ### Evaluation -/

section Steps

variable {ω : Type} (task : Task ω) (apply : Apply ω) (eval : Eval ω) (active : List Call)
  (id : AtomId) (p : Nat) (out : Array ParseTree) (s : Session ω)

theorem operator_rule (r : RuleId) : task.operator apply eval active id (.rule r) p out s =
    onMatch (fun found => ⟨found.stop, out.push found.tree, none⟩) (apply r p s) := by
  rw [Task.operator]
  obtain ⟨_ | _ | _, _⟩ := apply r p s <;> rfl

theorem operator_discard (a : AtomId) : task.operator apply eval active id (.discard a) p out s =
    onMatch (fun m => ⟨m.stop, out, none⟩) (eval a p #[] s) := by
  rw [Task.operator]
  obtain ⟨_ | _ | _, _⟩ := eval a p #[] s <;> rfl

theorem operator_splice (a : AtomId) : task.operator apply eval active id (.splice a) p out s =
    onMatch (fun m => { m with
      splice := if m.out.size = out.size + 1 then some out.size else m.splice })
    (eval a p out s) := by
  rw [Task.operator]
  obtain ⟨_ | _ | _, _⟩ := eval a p out s <;> rfl

theorem body_eq {r : RuleId} {rule : Rule} (hrule : task.grammar.rules[r]? = some rule) :
    task.body apply active r p s = onMatch (fun m =>
        ⟨(m.splice.bind (m.out[·]?)).getD (.node rule.name m.out.toList), m.stop⟩)
      (task.eval apply active task.grammar.atoms.size rule.body p #[] s) := by
  rw [Task.body, hrule]
  dsimp only
  obtain ⟨_ | _ | _, _⟩ := task.eval apply active task.grammar.atoms.size rule.body p #[] s <;> rfl

end Steps

namespace Contract

variable {ω : Type} {task : Task ω} {active : List Call} (c : Contract task active)

/-- Every application that the evaluation of an expression visits keeps to the contract and needs no
limit. -/
structure Guides (apply : Apply ω) (form : Form) (p : Nat) (s : Session ω) : Prop where
  serves : c.Serves apply form p s
  agrees : ∀ s' r q, c.Le s s' → c.Inv s' →
    Visits task.grammar task.subject (c.answers s') form p r q →
    Agrees (Performs task active (.application r q) s') (apply r q s')

/-- The evaluation of an atom keeps to the contract and needs no limit if the applications do. -/
structure Exact (apply : Apply ω) (eval : Eval ω) (a : AtomId) : Prop where
  sound : c.Sound apply eval a
  agrees : ∀ p out s, p ≤ task.subject.length → c.Inv s → c.Guides apply (.atom a) p s →
    Agrees (Performs task active (.atom a p out) s) (eval a p out s)

variable {c} {apply : Apply ω} {eval : Eval ω}

theorem Guides.of_visits {form form' : Form} {p p' : Nat} {s s' : Session ω}
    (h : c.Guides apply form p s) (hle : c.Le s s')
    (hvisits : ∀ s'' r q, c.Le s' s'' →
      Visits task.grammar task.subject (c.answers s'') form' p' r q →
      Visits task.grammar task.subject (c.answers s'') form p r q) :
    c.Guides apply form' p' s' where
  serves := h.serves.of_visits hle hvisits
  agrees s'' r q hle' hinv hv := h.agrees s'' r q (c.trans hle hle') hinv (hvisits s'' r q hle' hv)

section Operators

variable {input : Input} (hg : task.grammar.WellFormed) (hsubject : task.subject = .ofInput input)

include hg hsubject in
theorem sequence_agrees {atoms : List AtomId} (hexact : ∀ a ∈ atoms, c.Exact apply eval a)
    {p : Nat} (out : Array ParseTree) (splice : Option Nat) {s : Session ω}
    (hp : p ≤ task.subject.length) (hinv : c.Inv s) (hguides : c.Guides apply (.items atoms) p s) :
    Agrees (Performs task active (.items atoms p out splice) s)
      (Task.sequence eval atoms p out splice s) := by
  induction atoms generalizing p out splice s with
  | nil => exact Performs.done
  | cons a rest ih =>
      obtain ⟨hsound, hagrees⟩ := hexact a List.mem_cons_self
      have hitem : c.Guides apply (.atom a) p s :=
        hguides.of_visits (c.refl s) fun _ _ _ _ hv => .item hv
      have hfirst := hsound p out s hp hinv hitem.serves
      have hsame := hagrees p out s hp hinv hitem
      rw [Task.sequence]
      rcases heval : eval a p out s with ⟨m | f | e, s₁⟩ <;> rw [heval] at hfirst hsame
      · obtain ⟨hinv₁, hle₁, x, hx, hm⟩ := hfirst
        obtain ⟨x, rfl, rfl⟩ := Option.map_eq_some_iff.1 hm.symm
        obtain ⟨-, hlen⟩ := stop_bounds hg hsubject hx hp
        exact (ih (fun b hb => hexact b (List.mem_cons_of_mem a hb)) _ _ hlen hinv₁
          (hguides.of_visits hle₁ fun _ _ _ hle hv => .items (meaning_mono hle hx) hv)).imp
          fun _ => .item hsame
      · exact Performs.broken hsame
      · trivial

theorem choice_agrees {atoms : List AtomId} (hexact : ∀ a ∈ atoms, c.Exact apply eval a)
    (id : AtomId) (index : Nat) {p : Nat} (out : Array ParseTree) (failure : Failure)
    {s : Session ω} (hp : p ≤ task.subject.length) (hinv : c.Inv s)
    (hguides : c.Guides apply (.alternatives atoms) p s) :
    Agrees (Performs task active (.alternatives id p out index atoms failure) s)
      (task.choice eval active id p out index atoms failure s) := by
  induction atoms generalizing index failure s with
  | nil => exact Performs.exhausted
  | cons a rest ih =>
      obtain ⟨hsound, hagrees⟩ := hexact a List.mem_cons_self
      obtain ⟨hinv₀, hle₀⟩ := c.note (show (Event.tries id index p).Told _ _ _ from trivial) hinv
      have halternative : c.Guides apply (.atom a) p s :=
        hguides.of_visits (c.refl s) fun _ _ _ _ hv => .alternative hv
      have hfirst := alternative_evaluated hsound id index out hp hinv halternative.serves
      have hsame := hagrees p out _ hp hinv₀ (halternative.of_visits hle₀ fun _ _ _ _ hv => hv)
      rw [Task.choice]
      unfold Task.alternative at hfirst ⊢
      rcases heval : eval a p out (s.note task.observer active (.tries id index p)) with
        ⟨m | f | e, s₁⟩ <;> rw [heval] at hfirst hsame
      · exact Performs.taken hsame
      · obtain ⟨hinv₁, hle₁, x, hx, hm⟩ := hfirst
        rw [eq_comm, Option.map_eq_none_iff] at hm
        subst hm
        exact (ih (fun b hb => hexact b (List.mem_cons_of_mem a hb)) (index + 1) _ hinv₁
          (hguides.of_visits hle₁ fun _ _ _ hle hv => .alternatives (meaning_mono hle hx) hv)).imp
          fun _ => .passed hsame
      · trivial

include hg hsubject in
/-- Every match but the last moves on, so the rounds are not used up. -/
theorem repetition_agrees {a : AtomId} (hexact : c.Exact apply eval a) (min : Nat)
    (max : Option Nat) (rounds count : Nat) {p : Nat} (out : Array ParseTree)
    (splice : Option Nat) {s : Session ω} (hp : p ≤ task.subject.length)
    (hrounds : task.subject.length - p < rounds) (hinv : c.Inv s)
    (hguides : c.Guides apply (.run a min max count) p s) :
    Agrees (Performs task active (.run a min max count p out splice) s)
      (Task.repetition eval a min max rounds count p out splice s) := by
  induction rounds generalizing count p out splice s with
  | zero => omega
  | succ rounds ih =>
      rw [Task.repetition, ← isFull]
      by_cases hfull : isFull max count = true
      · rw [if_pos hfull]
        exact Performs.full hfull
      rw [if_neg hfull]
      rw [Bool.not_eq_true] at hfull
      have hnext : c.Guides apply (.atom a) p s :=
        hguides.of_visits (c.refl s) fun _ _ _ _ hv => .next hfull hv
      have hfirst := hexact.sound p out s hp hinv hnext.serves
      have hsame := hexact.agrees p out s hp hinv hnext
      rcases heval : eval a p out s with ⟨m | f | e, s₁⟩ <;> rw [heval] at hfirst hsame <;>
        dsimp only
      · obtain ⟨hinv₁, hle₁, x, hx, hm⟩ := hfirst
        obtain ⟨x, rfl, rfl⟩ := Option.map_eq_some_iff.1 hm.symm
        obtain ⟨-, hlen⟩ := stop_bounds hg hsubject hx hp
        by_cases hlt : p < (x.onto out none).stop
        · have hrounds' : task.subject.length - x.stop < rounds := by
            have : p < x.stop := hlt
            omega
          rw [if_pos hlt]
          exact (ih (count + 1) _ _ hlen hrounds' hinv₁ (hguides.of_visits hle₁
            fun _ _ _ hle hv => .more hfull (meaning_mono hle hx) hlt hv)).imp
            fun _ => .more hfull hsame hlt
        · rw [if_neg hlt]
          exact Performs.empty hfull hsame hlt
      · split
        · rename_i hcount
          exact Performs.tooFew hfull hsame hcount
        · rename_i hcount
          exact Performs.enough hfull hsame hcount
      · trivial

include hg hsubject in
theorem operator_agrees (id : AtomId) {atom : Atom}
    (hexact : ∀ a ∈ atom.children, c.Exact apply eval a) {p : Nat} (out : Array ParseTree)
    {s : Session ω} (hp : p ≤ task.subject.length) (hinv : c.Inv s)
    (hguides : c.Guides apply (.operator id atom) p s) :
    Agrees (Performs task active (.operator id atom p out) s)
      (task.operator apply eval active id atom p out s) := by
  cases atom with
  | rule r =>
      rw [operator_rule]
      exact (hguides.agrees s r p (c.refl s) hinv .rule).map _ (fun _ => .rule) fun _ _ => rfl
  | literal text => exact agrees_of_comesTo .literal
  | pattern pattern => exact agrees_of_comesTo .pattern
  | token name => exact agrees_of_comesTo .token
  | sequence atoms =>
      exact (sequence_agrees hg hsubject hexact out none hp hinv
        (hguides.of_visits (c.refl s) fun _ _ _ _ hv => .sequence hv)).imp fun _ => .sequence
  | choice atoms =>
      exact (choice_agrees hexact id 0 out (.here p) hp hinv
        (hguides.of_visits (c.refl s) fun _ _ _ _ hv => .choice hv)).imp fun _ => .choice
  | repetition a min max =>
      exact (repetition_agrees hg hsubject (hexact a List.mem_cons_self) min max
        (task.subject.length - p + 1) 0 out none hp (Nat.lt_succ_self _) hinv
        (hguides.of_visits (c.refl s) fun _ _ _ _ hv => .repetition hv)).imp fun _ => .repetition
  | lookahead a positive =>
      refine ((hexact a List.mem_cons_self).agrees p #[] s hp hinv
        (hguides.of_visits (c.refl s) fun _ _ _ _ hv => .lookahead hv)).map
        (fun result => Task.lookahead (fun _ _ _ _ => result) a positive p out s)
        (fun _ => .lookahead) fun e s' => ?_
      cases positive <;> rfl
  | discard a =>
      rw [operator_discard]
      exact ((hexact a List.mem_cons_self).agrees p #[] s hp hinv
        (hguides.of_visits (c.refl s) fun _ _ _ _ hv => .discard hv)).map _ (fun _ => .discard)
          fun _ _ => rfl
  | splice a =>
      rw [operator_splice]
      exact ((hexact a List.mem_cons_self).agrees p out s hp hinv
        (hguides.of_visits (c.refl s) fun _ _ _ _ hv => .splice hv)).map _ (fun _ => .splice)
          fun _ _ => rfl

include hg hsubject in
/-- The evaluation of an atom numbered below the bound needs no limit. -/
theorem eval_exact (apply : Apply ω) {bound id : Nat} (hid : id < bound)
    (hbound : bound ≤ task.grammar.atoms.size) :
    c.Exact apply (task.eval apply active bound) id := by
  induction bound generalizing id with
  | zero => exact absurd hid (Nat.not_lt_zero id)
  | succ bound ih =>
      refine ⟨eval_sound hg hsubject apply hid hbound, fun p out s hp hinv hguides => ?_⟩
      have hatom := Array.getElem?_eq_getElem (Nat.lt_of_lt_of_le hid hbound)
      generalize task.grammar.atoms[id] = atom at hatom
      have hoperator : Agrees (Performs task active (.operator id atom p out) s)
          (task.operator apply (task.eval apply active bound) active id atom p out s) :=
        operator_agrees hg hsubject id
          (fun a ha => ih (Nat.lt_of_lt_of_le (hg.child_lt hatom a ha) (Nat.le_of_lt_succ hid))
            (Nat.le_of_succ_le hbound))
          out hp hinv (hguides.of_visits (c.refl s) fun _ _ _ _ hv => .atom hatom hv)
      rw [Task.eval, hatom]
      exact hoperator.map (task.noteAtom active id p) (fun _ => .atom hatom) fun _ _ => rfl

include hg hsubject in
theorem body_agrees {r : RuleId} (hr : r < task.grammar.rules.size) {p : Nat}
    (hp : p ≤ task.subject.length) {s : Session ω} (hinv : c.Inv s)
    (happly : ∀ s' r' q, c.Le s s' → c.Inv s' →
      BodyVisits task.grammar task.subject (c.answers s') r p r' q →
      c.Applied s' r' q (apply r' q s') ∧
        Agrees (Performs task active (.application r' q) s') (apply r' q s')) :
    Agrees (Performs task active (.body r p) s) (task.body apply active r p s) := by
  have hrule := Array.getElem?_eq_getElem hr
  generalize task.grammar.rules[r] = rule at hrule
  have heval :=
    (eval_exact hg hsubject (c := c) apply (hg.body_lt hrule) (Nat.le_refl _)).agrees p #[]
      s hp hinv
      ⟨fun s' r' q hle hinv' hv => (happly s' r' q hle hinv' ⟨rule, hrule, hv⟩).1,
        fun s' r' q hle hinv' hv => (happly s' r' q hle hinv' ⟨rule, hrule, hv⟩).2⟩
  rw [body_eq task apply active p s hrule]
  exact heval.map _ (fun _ => .body hrule) fun _ _ => rfl

end Operators

end Contract

/-! ### Application -/

namespace Reading

variable {ω : Type} {task : Task ω} {L : Reading task} {active : List Call} {s : Session ω}
  {r : RuleId} {p : Nat}

theorem canAnswer_of_holds (h : L.Holds active s) {e : Entry} (he : s.memo.get? p r = some e) :
    canAnswer active r p e = true := by
  by_cases hfinal : e.isFinal = true
  · rcases (h.settled he hfinal).1 with ⟨hstate, hsome⟩ | ⟨hstate, -, hsome⟩
    · rw [Entry.found?, Option.isSome_map] at hsome
      rw [canAnswer, hstate]
      exact hsome
    · rw [canAnswer, hstate]
      exact hsome
  · have hopen := Bool.eq_false_iff.2 hfinal
    have hactive := (h.inProgress r p).2 ⟨e, he, hopen⟩
    rw [canAnswer]
    split
    · rename_i hmatched
      simp [Entry.isFinal, hmatched] at hopen
    · rename_i hfailed
      simp [Entry.isFinal, hfailed] at hopen
    · exact decide_eq_true hactive

/-- A rule grows without limits as it does with them, if its body is evaluated without them as
it is with them. -/
theorem grow_agrees {abort : Session ω → Prop} {body : Session ω → Outcome Found × Session ω}
    {σ : Call → Option Found} (hmay : L.May active r p)
    (hbody : ∀ s, L.Holds (⟨r, p⟩ :: active) s → Meets abort
      (fun o s' => L.Holds (⟨r, p⟩ :: active) s' ∧ Framed (⟨r, p⟩ :: active) s s' ∧
        Body task.grammar task.subject (L.Answered (⟨r, p⟩ :: active) s') r p o) (body s))
    (hagrees : ∀ s, L.Holds (⟨r, p⟩ :: active) s →
      Agrees (Performs task (⟨r, p⟩ :: active) (.body r p) s) (body s))
    {rounds : Nat} {s : Session ω} (h : L.Growing active σ r p s)
    (hrounds : growthBound task.subject.length p (seedsOf s ⟨r, p⟩) ≤ rounds) :
    Agrees (Performs task active (.growth r p) s) (task.grow active r p body rounds s) := by
  induction rounds generalizing s with
  | zero => exact absurd (Nat.lt_of_lt_of_le (growthBound_pos _ _ _) hrounds) (Nat.lt_irrefl 0)
  | succ rounds ih =>
      have hround : L.Holds (⟨r, p⟩ :: active) (body s).2 →
          Performs task (⟨r, p⟩ :: active) (.body r p) s (body s) →
          Agrees (Performs task active (.growth r p) s)
            (task.grow active r p body (rounds + 1) s) := by
        intro hholds hbody'
        -- The rule is still in progress, so its entry is there.
        obtain ⟨e, he, -⟩ := (hholds.inProgress r p).1 List.mem_cons_self
        have hsettled := settle_meets hmay h (hbody s h.holds)
        rw [Task.grow]
        cases hsettle : task.settle active r p (body s) with
        | done outcome s' => exact agrees_of_comesTo (.settled hbody' he hsettle)
        | again s' =>
            rw [hsettle] at hsettled
            obtain ⟨h', hless⟩ := h.again hmay hsettled
            exact (ih h' (Nat.le_of_lt_succ (Nat.lt_of_lt_of_le hless hrounds))).imp
              fun _ => .grown hbody' he hsettle
      have hkept := hbody s h.holds
      have hsame := hagrees s h.holds
      rcases hresult : body s with ⟨f | f | e, s₁⟩ <;> rw [hresult] at hkept hsame hround
      · exact hround hkept.1 hsame
      · exact hround hkept.1 hsame
      · rw [Task.grow, hresult]
        unfold Task.settle
        dsimp only
        cases s₁.memo.get? p r <;> trivial

/-- A rule that may be applied needs no limit, whatever the session. -/
theorem apply_agrees (hg : task.grammar.WellFormed) {input : Input}
    (hsubject : task.subject = .ofInput input) {room : Nat} :
    ∀ {active : List Call} {s : Session ω} {r : RuleId} {p : Nat}, L.Holds active s →
      L.Admits active r p →
      Agrees (Performs task active (.application r p) s) (task.apply room active r p s) := by
  induction room with
  | zero =>
      intro active s r p _ _
      rw [Task.apply]
      trivial
  | succ room ih =>
      intro active s r p h hadmits
      rw [Task.apply_succ]
      cases he : s.memo.get? p r with
      | some e => exact agrees_of_comesTo (.replayed he (canAnswer_of_holds h he))
      | none =>
          obtain ⟨hr, hp⟩ := L.inRange hadmits.1
          have hfresh := h.notMem_of_get?_eq_none he
          obtain ⟨hlook, -⟩ := h.of_get? { s with memo := (s.memo.lookup p r).2 }
            (s.memo.get?_lookup p r) h.log
          obtain ⟨hgrowing, -, hrounds⟩ := growing_entered hlook hadmits
            ((s.memo.get?_lookup p r p r).trans he)
          have happly : ∀ {s' r' q}, L.Holds (⟨r, p⟩ :: active) s' →
              L.Admits (⟨r, p⟩ :: active) r' q →
              L.Applied room (⟨r, p⟩ :: active) s' r' q
                (task.apply room (⟨r, p⟩ :: active) r' q s') :=
            apply_meets hg hsubject
          refine (grow_agrees hadmits.1 (body_meets hg hsubject hadmits hfresh happly)
            (fun s' h' => ?_) hgrowing (Nat.le_of_eq hrounds)).imp fun _ => .entered he
          refine Contract.body_agrees (c := L.contract room (⟨r, p⟩ :: active)) hg hsubject hr hp h'
            fun s'' r' q _ hinv hv => ?_
          have hinside := hadmits.visits hg hsubject hfresh hinv hv
          exact ⟨happly hinv hinside, ih hinv hinside⟩

end Reading

end Seedling
