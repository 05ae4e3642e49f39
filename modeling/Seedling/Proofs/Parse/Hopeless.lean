import Seedling.Proofs.Parse.Recursion

/-!
Left recursion that is refused is hopeless. A cycle of rules is refused if each of them has to
enter the cycle before it can match. What has to enter matches only where a rule of the cycle
has matched already, be it as a seed or by an answer from the memo table; so the first match of
such a rule would need one before it, and there is none.

The check says so only of parts that enter indeed. It may overlook others, since it looks into
each rule once and gives up on the rest of a sequence at an item that has to consume.
-/

namespace Seedling

/-- What matches only if a rule of the cycle does. -/
inductive Grammar.Enters (g : Grammar) (cycle : SortedSet RuleId) : Part → Prop where
  | cycle {id r} : g.atoms[id]? = some (.rule r) → r ∈ cycle → g.Enters cycle (.atom id)
  | call {id r} : g.atoms[id]? = some (.rule r) → g.Enters cycle (.rule r) →
      g.Enters cycle (.atom id)
  | body {r rule} : g.rules[r]? = some rule → g.Enters cycle (.atom rule.body) →
      g.Enters cycle (.rule r)
  | sequence {id atoms a} : g.atoms[id]? = some (.sequence atoms) → a ∈ atoms →
      g.Enters cycle (.atom a) → g.Enters cycle (.atom id)
  | choice {id atoms} : g.atoms[id]? = some (.choice atoms) →
      (∀ a ∈ atoms, g.Enters cycle (.atom a)) → g.Enters cycle (.atom id)
  | repetition {id a min max} : g.atoms[id]? = some (.repetition a min max) → 0 < min →
      g.Enters cycle (.atom a) → g.Enters cycle (.atom id)
  | lookahead {id a} : g.atoms[id]? = some (.lookahead a true) → g.Enters cycle (.atom a) →
      g.Enters cycle (.atom id)
  | discard {id a} : g.atoms[id]? = some (.discard a) → g.Enters cycle (.atom a) →
      g.Enters cycle (.atom id)
  | splice {id a} : g.atoms[id]? = some (.splice a) → g.Enters cycle (.atom a) →
      g.Enters cycle (.atom id)

/-! ### The check -/

namespace LeftEdge

theorem exists_of_sequenceMustEnter {isNullable : AtomId → Bool}
    {must : AtomId → SortedSet RuleId → Verdict} {atoms : List AtomId} {visited : SortedSet RuleId}
    (h : (sequenceMustEnter isNullable must atoms visited).1 = true) :
    ∃ a ∈ atoms, ∃ visited, (must a visited).1 = true := by
  induction atoms generalizing visited with
  | nil => contradiction
  | cons a rest ih =>
      rw [sequenceMustEnter] at h
      rcases hmust : must a visited with ⟨_ | _, visited'⟩ <;> rw [hmust] at h <;> dsimp only at h
      · cases hnullable : isNullable a with
        | false =>
            rw [hnullable] at h
            contradiction
        | true =>
            rw [hnullable] at h
            obtain ⟨b, hb, hmust'⟩ := ih h
            exact ⟨b, List.mem_cons_of_mem a hb, hmust'⟩
      · exact ⟨a, List.mem_cons_self, visited, by rw [hmust]⟩

theorem exists_of_allHold {holds : AtomId → SortedSet RuleId → Verdict} {atoms : List AtomId}
    {visited : SortedSet RuleId} (h : (allHold holds atoms visited).1 = true) :
    ∀ a ∈ atoms, ∃ visited, (holds a visited).1 = true := by
  induction atoms generalizing visited with
  | nil => exact List.forall_mem_nil _
  | cons a rest ih =>
      rw [allHold] at h
      rcases hholds : holds a visited with ⟨_ | _, visited'⟩ <;> rw [hholds] at h <;>
        dsimp only at h
      · contradiction
      · exact List.forall_mem_cons.2 ⟨⟨visited, by rw [hholds]⟩, ih h⟩

variable {e : LeftEdge} {cycle : SortedSet RuleId}

/-- An atom that the check says has to enter does. -/
theorem enters_of_atomMustEnter {ruleMust : RuleId → SortedSet RuleId → Verdict}
    (hrule : ∀ r visited, (ruleMust r visited).1 = true → e.grammar.Enters cycle (.rule r))
    {bound : Nat} {id : AtomId} {visited : SortedSet RuleId}
    (h : (atomMustEnter e cycle ruleMust bound id visited).1 = true) :
    e.grammar.Enters cycle (.atom id) := by
  -- On the bound, which goes down from an atom to its operands.
  induction bound generalizing id visited with
  | zero => contradiction
  | succ bound ih =>
      cases hatom : e.grammar.atoms[id]? with
      | none =>
          simp only [atomMustEnter, hatom] at h
          contradiction
      | some atom =>
          cases atom with
          | literal | pattern | token =>
              simp only [atomMustEnter, hatom] at h
              contradiction
          | rule r =>
              simp only [atomMustEnter, hatom] at h
              by_cases hr : r ∈ cycle
              · exact .cycle hatom hr
              · rw [if_neg (by simpa [SortedSet.contains] using hr)] at h
                exact .call hatom (hrule r visited h)
          | sequence atoms =>
              simp only [atomMustEnter, hatom] at h
              obtain ⟨a, ha, _, hmust⟩ := exists_of_sequenceMustEnter h
              exact .sequence hatom ha (ih hmust)
          | choice atoms =>
              simp only [atomMustEnter, hatom] at h
              refine .choice hatom fun a ha => ?_
              obtain ⟨_, hmust⟩ := exists_of_allHold h a ha
              exact ih hmust
          | repetition a min max =>
              simp only [atomMustEnter, hatom] at h
              by_cases hmin : 0 < min
              · rw [if_pos hmin] at h
                exact .repetition hatom hmin (ih h)
              · rw [if_neg hmin] at h
                contradiction
          | lookahead a positive =>
              simp only [atomMustEnter, hatom] at h
              cases positive with
              | true => exact .lookahead hatom (ih h)
              | false => contradiction
          | discard a =>
              simp only [atomMustEnter, hatom] at h
              exact .discard hatom (ih h)
          | splice a =>
              simp only [atomMustEnter, hatom] at h
              exact .splice hatom (ih h)

theorem enters_of_ruleMustEnter {depth : Nat} {r : RuleId} {visited : SortedSet RuleId}
    (h : (ruleMustEnter e cycle depth r visited).1 = true) : e.grammar.Enters cycle (.rule r) := by
  induction depth generalizing r visited with
  | zero => contradiction
  | succ depth ih =>
      rw [ruleMustEnter] at h
      split at h
      · contradiction
      · cases hrule : e.grammar.rules[r]? with
        | none =>
            simp only [hrule] at h
            contradiction
        | some rule =>
            simp only [hrule] at h
            exact .body hrule (enters_of_atomMustEnter (fun r visited => ih) h)

/-- Every rule of a cycle that is stuck has to enter it. -/
theorem enters_of_isStuck (h : e.isStuck cycle = true) :
    ∀ r ∈ cycle, e.grammar.Enters cycle (.rule r) := by
  intro r hr
  have hstuck := List.all_eq_true.1 h r hr
  cases hrule : e.grammar.rules[r]? with
  | none =>
      simp only [hrule] at hstuck
      contradiction
  | some rule =>
      simp only [hrule] at hstuck
      exact .body hrule (enters_of_atomMustEnter (fun _ _ => enters_of_ruleMustEnter) hstuck)

end LeftEdge

theorem Grammar.exists_of_unresolvable {g : Grammar} {names : List String}
    (h : g.leftEdge.unresolvable = some names) :
    ∃ r, g.leftEdge.isStuck (g.leftEdge.cycleOf r) = true ∧
      names = (g.leftEdge.cycleOf r).toList.map g.ruleName := by
  obtain ⟨r, -, hr⟩ := List.exists_of_findSome?_eq_some h
  split at hr
  · rename_i hcheck
    exact ⟨r, ((Bool.and_eq_true _ _).mp hcheck).2, (Option.some.inj hr).symm⟩
  · contradiction

/-! ### What enters does not match -/

section Meaning

variable {g : Grammar} {subject : Subject} {A : Answers} {p : Nat} {o : Option Piece}

theorem Meaning.items_eq_none {atoms : List AtomId} {a : AtomId}
    (h : Meaning g subject A (.items atoms) p o) (ha : a ∈ atoms)
    (hfails : ∀ p o, Meaning g subject A (.atom a) p o → o = none) : o = none := by
  induction atoms generalizing p o with
  | nil => exact absurd ha List.not_mem_nil
  | cons b rest ih =>
      cases h with
      | broken => rfl
      | item hx hrest =>
          rcases List.mem_cons.1 ha with rfl | ha
          · cases hfails _ _ hx
          · rw [ih hrest ha, Option.map_none]

theorem Meaning.alternatives_eq_none {atoms : List AtomId}
    (h : Meaning g subject A (.alternatives atoms) p o)
    (hfails : ∀ a ∈ atoms, ∀ p o, Meaning g subject A (.atom a) p o → o = none) : o = none := by
  induction atoms generalizing p o with
  | nil =>
      cases h
      rfl
  | cons b rest ih =>
      obtain ⟨hb, hrest⟩ := List.forall_mem_cons.1 hfails
      cases h with
      | taken hx => exact hb _ _ hx
      | passed _ h => exact ih h hrest

theorem Meaning.run_eq_none {a : AtomId} {min : Nat} {max : Option Nat}
    (h : Meaning g subject A (.run a min max 0) p o) (hmin : 0 < min) (hmax : max ≠ some 0)
    (hfails : ∀ p o, Meaning g subject A (.atom a) p o → o = none) : o = none := by
  cases h with
  | full hfull =>
      cases max with
      | none => contradiction
      | some n => exact absurd (congrArg some (by simpa [isFull] using hfull)) hmax
  | more _ hx | empty _ hx => cases hfails _ _ hx
  | enough _ _ hcount => exact absurd hmin hcount
  | tooFew => rfl

variable {cycle : SortedSet RuleId}
  (hrepetition : ∀ (id a : AtomId) (min : Nat),
    g.atoms[id]? = some (.repetition a min (some 0)) → min = 0)
  (hstuck : ∀ r ∈ cycle, g.Enters cycle (.rule r))
  (hA : ∀ r q o, g.Enters cycle (.rule r) → A r q o → o = none)

include hrepetition hstuck hA in
/-- As long as rules that have to enter the cycle have not matched, no atom matches that has to. -/
theorem Grammar.Enters.meaning_eq_none {part : Part} (h : g.Enters cycle part) :
    ∀ id, part = .atom id → ∀ p o, Meaning g subject A (.atom id) p o → o = none := by
  have hoperator : ∀ {id atom p o}, g.atoms[id]? = some atom →
      Meaning g subject A (.atom id) p o → Meaning g subject A (.operator id atom) p o := by
    intro id atom p o hatom hx
    cases hx with
    | atom hatom' hx =>
        cases hatom.symm.trans hatom'
        exact hx
  have hrule : ∀ {id r p o}, g.atoms[id]? = some (.rule r) → g.Enters cycle (.rule r) →
      Meaning g subject A (.atom id) p o → o = none := by
    intro id r p o hatom henters hx
    cases hoperator hatom hx with
    | rule ha => rw [hA _ _ _ henters ha, Option.map_none]
  -- On why the part has to enter. References to rules are the end of it, since what these
  -- answer is known.
  induction h with
  | body =>
      intro id hpart
      contradiction
  | cycle hatom hr =>
      rintro _ ⟨⟩ p o hx
      exact hrule hatom (hstuck _ hr) hx
  | call hatom henters =>
      rintro _ ⟨⟩ p o hx
      exact hrule hatom henters hx
  | sequence hatom ha _ ih =>
      rintro _ ⟨⟩ p o hx
      cases hoperator hatom hx with
      | sequence hx => exact hx.items_eq_none ha (ih _ rfl)
  | choice hatom _ ih =>
      rintro _ ⟨⟩ p o hx
      cases hoperator hatom hx with
      | choice hx => exact hx.alternatives_eq_none fun a ha => ih a ha a rfl
  | @repetition id a min max hatom hmin _ ih =>
      rintro _ ⟨⟩ p o hx
      cases hoperator hatom hx with
      | repetition hx =>
          refine hx.run_eq_none hmin (fun hmax => ?_) (ih _ rfl)
          exact Nat.ne_of_gt hmin (hrepetition id a min (hmax ▸ hatom))
  | lookahead hatom _ ih =>
      rintro _ ⟨⟩ p o hx
      cases hoperator hatom hx with
      | lookahead hy =>
          rw [ih _ rfl _ _ hy]
          rfl
  | discard hatom _ ih =>
      rintro _ ⟨⟩ p o hx
      cases hoperator hatom hx with
      | discard hy => rw [ih _ rfl _ _ hy, Option.map_none]
  | splice hatom _ ih =>
      rintro _ ⟨⟩ p o hx
      cases hoperator hatom hx with
      | splice hy => rw [ih _ rfl _ _ hy, Option.map_none]

end Meaning

/-! ### Parses -/

/-- An application of the rule has matched: its match or its seed is told, or an atom that
refers to it has matched. -/
inductive Sight.Succeeds (g : Grammar) (r : RuleId) : Sight → Prop where
  | matched {active memo p stop} : Succeeds g r ⟨active, memo, .rule r p (.matched stop)⟩
  | grown {active memo p stop} : Succeeds g r ⟨active, memo, .rule r p (.grow stop)⟩
  | referred {active memo id p stop} : g.atoms[id]? = some (.rule r) →
      Succeeds g r ⟨active, memo, .atom id p (some stop)⟩

/-- A match, if it is one, is inside the input and of a rule that can do without the cycle. -/
def FreeAt (g : Grammar) (cycle : SortedSet RuleId) (input : Input) : Answers := fun r p o =>
  ∀ f, o = some f →
    ¬ g.Enters cycle (.rule r) ∧ (p ≤ input.length → p ≤ f.stop ∧ f.stop ≤ input.length)

section Reading

variable {ω : Type} {g : Grammar} {cycle : SortedSet RuleId} {input : Input}

theorem freeAt_none {r : RuleId} {p : Nat} : FreeAt g cycle input r p none := by
  intro f hf
  contradiction

theorem freeAt_bounded {A : Answers} (hA : ∀ r q o, A r q o → FreeAt g cycle input r q o) :
    A.Bounded input.length :=
  fun r q f hq ha => (hA r q _ ha f rfl).2 hq

def freeLedger (g : Grammar) (cycle : SortedSet RuleId) (input : Input) (Log : ω → Prop) :
    Ledger ω where
  Final := FreeAt g cycle input
  Seed := FreeAt g cycle input
  Met _ _ := True
  Log := Log

theorem says_freeAt {Log : ω → Prop} {active : List Call} {σ : Call → Option Found}
    (hσ : ∀ c ∈ active, FreeAt g cycle input c.rule c.position (σ c)) {r : RuleId} {p : Nat}
    {o : Option Found} (h : (freeLedger g cycle input Log).Says active σ r p o) :
    FreeAt g cycle input r p o :=
  h.imp (fun _ _ _ hfinal => hfinal) hσ

variable (hg : g.WellFormed)
  (hrepetition : ∀ (id a : AtomId) (min : Nat),
    g.atoms[id]? = some (.repetition a min (some 0)) → min = 0)
  (hstuck : ∀ r ∈ cycle, g.Enters cycle (.rule r))

include hg hrepetition hstuck in
theorem Body.freeAt {A : Answers} {r : RuleId} {p : Nat} {o : Option Found}
    (hA : ∀ r q o, A r q o → FreeAt g cycle input r q o) (h : Body g (.ofInput input) A r p o) :
    FreeAt g cycle input r p o := by
  obtain ⟨rule, hrule, x, hx, rfl⟩ := h
  intro f hf
  obtain ⟨y, rfl, rfl⟩ := Option.map_eq_some_iff.1 hf
  refine ⟨fun henters => ?_, hx.bounds hg (freeAt_bounded hA) y rfl⟩
  cases henters with
  | body hrule' hbody =>
      cases hrule.symm.trans hrule'
      have hnone : ∀ r q o, g.Enters cycle (.rule r) → A r q o → o = none := by
        intro r q o henters ha
        cases o with
        | none => rfl
        | some f => exact absurd henters (hA r q _ ha f rfl).1
      cases hbody.meaning_eq_none hrepetition hstuck hnone _ rfl _ _ hx

def freeReading (observer : Observer ω) (input : Input) (Log : ω → Prop)
    (hnoted : ∀ {active s event},
      Kept (freeLedger g cycle input Log) g (Subject.ofInput input).length active s →
      (freeLedger g cycle input Log).Tells ⟨g, .ofInput input, observer⟩
        (fun _ r p => r < g.rules.size ∧ p ≤ input.length) active s event →
      Log (observer.note active s.memo event s.log)) :
    Reading (⟨g, .ofInput input, observer⟩ : Task ω) where
  toLedger := freeLedger g cycle input Log
  May _ r p := r < g.rules.size ∧ p ≤ input.length
  inRange h := ⟨h.1, by rw [Subject.length_ofInput]; exact h.2⟩
  final_bounded := by
    rw [Subject.length_ofInput]
    exact freeAt_bounded fun _ _ _ h => h
  seed_bounded := by
    rw [Subject.length_ofInput]
    exact freeAt_bounded fun _ _ _ h => h
  start _ _ := freeAt_none
  met _ _ := trivial
  visits hmay _ hσ hv := hv.inRange hg (freeAt_bounded fun _ _ _ => says_freeAt hσ) hmay.1 hmay.2
  stage _ _ hσ hbody := hbody.freeAt hg hrepetition hstuck fun _ _ _ => says_freeAt hσ
  grown _ _ hσ hgrow := hgrow.invariant freeAt_none fun _ _ hseed hbody =>
    hbody.freeAt hg hrepetition hstuck fun _ _ _ => says_freeAt (forall_mem_update hσ hseed)
  noted := hnoted

/-- What is in the table, for good or as a seed, is of rules that can do without the cycle. -/
theorem Kept.freeAt {Log : ω → Prop} {length : Nat} {active : List Call}
    {s : Session ω} {r : RuleId}
    {p : Nat} {e : Entry} (h : Kept (freeLedger g cycle input Log) g length active s)
    (he : s.memo.get? p r = some e) : FreeAt g cycle input r p e.found? := by
  cases hfinal : e.isFinal with
  | true => exact (h.settled he hfinal).2
  | false => exact h.seeds he hfinal

theorem not_succeeds_of_tells {Log : ω → Prop} {observer : Observer ω}
    {May : List Call → RuleId → Nat → Prop} {length : Nat} {active : List Call} {s : Session ω}
    {event : Event} (hkept : Kept (freeLedger g cycle input Log) g length active s)
    (htells : (freeLedger g cycle input Log).Tells ⟨g, .ofInput input, observer⟩ May active s event)
    {r : RuleId} (hr : g.Enters cycle (.rule r)) :
    ¬ Sight.Succeeds g r ⟨active, s.memo, event⟩ := by
  have htable : ∀ {p stop}, ¬ s.memo.Holds r p stop := by
    rintro p stop ⟨e, f, he, hf, -⟩
    exact (hkept.freeAt he f hf).1 hr
  intro h
  cases h with
  | matched => exact htable htells
  | grown => exact htable htells.2
  | referred hatom =>
      obtain ⟨-, x, hx, hstop⟩ := htells
      obtain ⟨x, rfl, -⟩ := Option.map_eq_some_iff.1 hstop.symm
      cases hx with
      | atom hatom' hx =>
          cases hatom.symm.trans hatom'
          generalize hy : some x = y at hx
          cases hx with
          | rule ha =>
              -- The match is a final answer or a seed, and the table has both.
              obtain ⟨f, rfl, -⟩ := Option.map_eq_some_iff.1 hy.symm
              refine (says_freeAt (fun c hc => ?_) ha f rfl).1 hr
              obtain ⟨e, he, -⟩ := (hkept.inProgress c.rule c.position).1 hc
              rw [Reading.seedsOf_eq he]
              exact hkept.freeAt he

include hg hrepetition hstuck in
/-- An application, of whatever rule and wherever, shows no match of a rule that has to enter
the cycle. -/
theorem apply_nil_free {start : RuleId} {p : Nat} (hstart : start < g.rules.size)
    (hp : p ≤ input.length) (room : Nat) (f : Failure) :
    (∀ x ∈ (Task.apply ⟨g, .ofInput input, .sights⟩ room [] start p ⟨.empty, f, []⟩).2.log,
        ∀ r, g.Enters cycle (.rule r) → ¬ x.Succeeds g r) ∧
      ∀ found, (Task.apply ⟨g, .ofInput input, .sights⟩ room [] start p ⟨.empty, f, []⟩).1 =
        .ok found → FreeAt g cycle input start p (some found) := by
  let L := freeReading hg hrepetition hstuck .sights input
    (fun log => ∀ x ∈ log, ∀ r, g.Enters cycle (.rule r) → ¬ Sight.Succeeds g r x)
    fun hkept htells x hx => by
      rcases List.mem_cons.1 hx with rfl | hx
      · exact fun r => not_succeeds_of_tells hkept htells
      · exact hkept.log x hx
  have hempty : L.Log [] := fun x hx => absurd hx List.not_mem_nil
  have hmeets := L.apply_nil_meets hg rfl room f hempty (show L.May [] start p from ⟨hstart, hp⟩)
  refine ⟨hmeets.session (fun _ _ h => h.2) fun _ h => h.2, fun found hfound => ?_⟩
  generalize Task.apply ⟨g, .ofInput input, .sights⟩ room [] start p ⟨.empty, f, []⟩ = result
    at hmeets hfound
  obtain ⟨_, s⟩ := result
  cases hfound
  exact (show L.Final start p (some found) ∧ L.Log s.log from hmeets).1

end Reading

namespace Parser

variable {parser : Parser} {input : Input}

/-- A cycle of left recursion that is refused can never match. In no parse with the tables, from
whatever rule, does an application of a rule of the cycle succeed; nor does it on its own, at
whatever position and with whatever limit on depth. -/
theorem unresolvable_never_matches {atoms : Array Atom} {rules : Array Rule} {root : RuleId}
    {names : List String} (hg : Grammar.assemble atoms rules root = .ok parser.grammar)
    (hrepetition : ∀ (id a : AtomId) (min : Nat),
      parser.grammar.atoms[id]? = some (.repetition a min (some 0)) → min = 0)
    (hcycle : parser.grammar.leftEdge.unresolvable = some names) {r : RuleId}
    (hr : r < parser.grammar.rules.size) (hname : parser.grammar.ruleName r ∈ names) :
    (∀ start < parser.grammar.rules.size,
      ∀ x ∈ (parser.run .sights [] start input).2.1, ¬ x.Succeeds parser.grammar r) ∧
      ∀ p ≤ input.length, ∀ (room : Nat) (found : Found),
        (Task.apply ⟨parser.grammar, .ofInput input, .sights⟩ room [] r p ⟨.empty, .here p, []⟩).1 ≠
          .ok found := by
  have hwf := Grammar.assemble_wellFormed hg
  obtain ⟨first, hstuck, rfl⟩ := Grammar.exists_of_unresolvable hcycle
  have henters := LeftEdge.enters_of_isStuck hstuck
  have hmem : r ∈ parser.grammar.leftEdge.cycleOf first := by
    obtain ⟨r', hr', hsame⟩ := List.mem_map.1 hname
    have hlt : r' < parser.grammar.rules.size :=
      Grammar.lt_of_mem_reachOf (of_decide_eq_true (SortedSet.mem_filter.1 hr').2)
    rwa [← Grammar.ruleName_inj hg hlt hr hsame]
  refine ⟨fun start hstart => ?_, fun p hp room found hfound => ?_⟩
  · cases hrefusal : refusal parser.grammar parser.config input with
    | some e =>
        rw [run_refused hrefusal]
        exact List.forall_mem_nil _
    | none =>
        rw [run_eq_attempt hrefusal]
        intro x hx
        exact (apply_nil_free hwf hrepetition henters hstart (Nat.zero_le _) _ _).1 x hx r
          (henters r hmem)
  · have hfree := (apply_nil_free hwf hrepetition henters hr hp room (.here p)).2 found hfound
    exact (hfree found rfl).1 (henters r hmem)

/-- `s: 'z' | a` with `a: 'q'? b 'x'` and `b: a 'y' | b 'w'`. -/
def hopeless : Grammar where
  atoms := #[.literal "z", .rule 1, .choice [0, 1], .literal "q", .repetition 3 0 (some 1), .rule 2,
    .literal "x", .sequence [4, 5, 6], .literal "y", .sequence [1, 8], .literal "w",
    .sequence [5, 10], .choice [9, 11]]
  rules := #[⟨"s", 2⟩, ⟨"a", 7⟩, ⟨"b", 12⟩]
  root := 0
  matchers := Array.replicate 13 none

/-- The rules `a` and `b` are refused. The text `z` can be parsed all the same; `b` is applied
in `qz`, after the `q`, and never succeeds. -/
theorem unresolvable_never_matches_hopeless :
    hopeless.leftEdge.unresolvable = some ["a", "b"] ∧
      ((ofGrammar hopeless {}).run .sights [] 0 (.text "z")).1.toOption.isSome = true ∧
      (((ofGrammar hopeless {}).run .sights [] 0 (.text "qz")).2.2.memo.get? 1 2).isSome = true ∧
      ∀ x ∈ ((ofGrammar hopeless {}).run .sights [] 0 (.text "qz")).2.1,
        ¬ x.Succeeds hopeless 2 := by
  have hassemble : Grammar.assemble hopeless.atoms hopeless.rules 0 = .ok hopeless := by
    with_unfolding_all rfl
  have hcycle : hopeless.leftEdge.unresolvable = some ["a", "b"] := by decide +kernel
  refine ⟨hcycle, by decide +kernel, by decide +kernel, ?_⟩
  refine (@unresolvable_never_matches (ofGrammar hopeless {}) (.text "qz") _ _ _ _ hassemble
    (fun id a min hatom => ?_) hcycle 2 (by decide) (by decide)).1 0 (by decide)
  simpa [ofGrammar, hopeless] using Array.mem_of_getElem? hatom

end Parser

end Seedling
