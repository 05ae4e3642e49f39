import Seedling.Parse.Parser
import Seedling.Proofs.Parse.Application
import Seedling.Proofs.Parse.Reference

/-!
Where all left recursion is direct, the memo table takes no part in what rules come to. An
application inside others that may reach it only by going on, or along the left edge, cannot
meet any of them again but the one of its own rule; so every entry that is final holds what the
rule comes to with nothing around it.

This is shown for a region of the grammar at a time. With the whole grammar for a region it says
that parsing gives what applying the start rule means.
-/

namespace Seedling

variable {g : Grammar}

namespace Region

/-- No two rules of the region are on each other's left edge. -/
def Direct (R : Region g) : Prop :=
  ∀ a b, R.rules a → R.rules b → b ∈ g.reachOf a → a ∈ g.reachOf b → a = b

/-- What final answers and seeds are: sound, and final ones of rules of the region what those
rules come to. -/
def ledger {ω : Type} (R : Region g) (input : Input) (Log : ω → Prop) : Ledger ω where
  Final r p o := SoundAt R input r p o ∧
    (R.rules r → Applies g (.ofInput input) .none r p o)
  Seed := SoundAt R input
  Met _ _ := True
  Log := Log

/-- An application inside others that is further on than those of the region, or on their left
edge. -/
def May (R : Region g) (length : Nat) (active : List Call) (r : RuleId) (p : Nat) : Prop :=
  r < g.rules.size ∧ p ≤ length ∧ ∀ c ∈ active, R.rules c.rule →
    R.rules r ∧ (c.position < p ∨ p = c.position ∧ r ∈ g.reachOf c.rule)

variable {ω : Type} {R : Region g} {input : Input} {Log : ω → Prop} {active : List Call}
  {σ : Call → Option Found} {r r' : RuleId} {p q : Nat} {o : Option Found}

theorem soundAt_of_says (hσ : ∀ c ∈ active, SoundAt R input c.rule c.position (σ c))
    (h : (R.ledger input Log).Says active σ r p o) : SoundAt R input r p o :=
  h.imp (fun _ _ _ hfinal => hfinal.1) hσ

section Applications

variable (hg : g.WellFormed) (hR : R.Satisfiable)
  (hmay : R.May input.length active r p)

include hg hR hmay in
theorem May.visits {A : Answers} (hA : ∀ r' q o, A r' q o → SoundAt R input r' q o)
    (hv : BodyVisits g (.ofInput input) A r p r' q) :
    R.May input.length (⟨r, p⟩ :: active) r' q := by
  obtain ⟨hr, hp, hactive⟩ := hmay
  have hbounded : A.Bounded input.length := fun r' q f hq ha => (hA r' q _ ha f rfl hq).1
  obtain ⟨hr', hq⟩ := hv.inRange hg hbounded hr hp
  refine ⟨hr', hq, fun c hc hcR => ?_⟩
  rcases List.mem_cons.1 hc with rfl | hc
  · obtain ⟨hr', -, hnear⟩ := hv.near hg hR hA hcR hp
    exact ⟨hr', hnear⟩
  · -- Around the rule itself: further on twice, or along the left edge twice.
    obtain ⟨hrR, hfar⟩ := hactive c hc hcR
    obtain ⟨hr', -, hnear⟩ := hv.near hg hR hA hrR hp
    refine ⟨hr', ?_⟩
    rcases hnear with hlt | ⟨rfl, hreach⟩
    · left
      rcases hfar with hlt' | ⟨rfl, -⟩
      · exact Nat.lt_trans hlt' hlt
      · exact hlt
    · rcases hfar with hlt' | ⟨rfl, hreach'⟩
      · exact .inl hlt'
      · exact .inr ⟨rfl, hg.reachOf_trans hreach' hreach⟩

variable (hdirect : R.Direct) (hfresh : ⟨r, p⟩ ∉ active)

include hg hR hmay hdirect hfresh in
/-- A rule of the region meets none of the applications around it but its own. -/
theorem May.says_self
    (hA : ∀ r' q o, (R.ledger input Log).Says (⟨r, p⟩ :: active) σ r' q o → SoundAt R input r' q o)
    (hr : R.rules r)
    (hv : BodyVisits g (.ofInput input) ((R.ledger input Log).Says (⟨r, p⟩ :: active) σ) r p r' q)
    (h : (R.ledger input Log).Says (⟨r, p⟩ :: active) σ r' q o) :
    (r' = r ∧ q = p ∧ o = σ ⟨r, p⟩) ∨ (Applies g (.ofInput input) .none r' q o ∧ R.rules r' ∧
      q ≤ input.length ∧ (p < q ∨ q = p ∧ r ≠ r' ∧ r ∉ g.reachOf r')) := by
  obtain ⟨hr', hq, hnear⟩ := hv.near hg hR hA hr hmay.2.1
  rw [Ledger.Says] at h
  split at h
  · rename_i hmem
    rcases List.mem_cons.1 hmem with hself | hin
    · cases hself
      exact .inl ⟨rfl, rfl, h⟩
    · -- An application around it would be on the same cycle of left calls.
      exfalso
      obtain ⟨-, hfar⟩ := hmay.2.2 ⟨r', q⟩ hin hr'
      rcases hnear with hlt | ⟨rfl, hreach⟩
      · rcases hfar with hlt' | ⟨heq, -⟩
        · exact Nat.lt_asymm hlt hlt'
        · exact absurd heq (Nat.ne_of_lt hlt)
      · rcases hfar with hlt' | ⟨-, hreach'⟩
        · exact Nat.lt_irrefl _ hlt'
        · obtain rfl := hdirect r r' hr hr' hreach hreach'
          exact hfresh hin
  · rename_i hmem
    refine .inr ⟨h.2 hr', hr', hq, ?_⟩
    rcases hnear with hlt | ⟨rfl, hreach⟩
    · exact .inl hlt
    · have hne : r ≠ r' := by
        rintro rfl
        exact hmem List.mem_cons_self
      exact .inr ⟨rfl, hne, fun hback => hne (hdirect r r' hr hr' hreach hback)⟩

include hg hR in
/-- What a rule comes to does not depend on a rule that is not on its left edge. -/
theorem applies_set {seed : Option Found} (h : Applies g (.ofInput input) .none r' q o)
    (hr' : R.rules r') (hq : q ≤ input.length)
    (hfar : p < q ∨ q = p ∧ r ≠ r' ∧ r ∉ g.reachOf r') :
    Applies g (.ofInput input) (Seeds.none.set r p seed) r' q o := by
  refine h.congr hg hR Seeds.sound_none hr' hq fun r'' q' hlook => ?_
  rw [Seeds.set_of_ne]
  rintro ⟨rfl, rfl⟩
  rcases hfar with hlt | ⟨rfl, hne, hnot⟩
  · rcases hlook with hlt' | ⟨rfl, -⟩
    · exact Nat.lt_asymm hlt hlt'
    · exact Nat.lt_irrefl _ hlt
  · rcases hlook with hlt | ⟨-, heq | hreach⟩
    · exact Nat.lt_irrefl _ hlt
    · exact hne heq
    · exact hnot hreach

include hg hR hmay hdirect hfresh in
/-- What a rule grows to inside others is sound, and for a rule of the region what it comes to. -/
theorem May.grown
    (hσ : ∀ c ∈ active, SoundAt R input c.rule c.position (σ c))
    (h : GrowsTo (fun seed => Body g (.ofInput input) ((R.ledger input Log).Says (⟨r, p⟩ :: active)
      (Function.update σ ⟨r, p⟩ seed)) r p) none o) :
    (R.ledger input Log).Final r p o := by
  have hseeded : ∀ seed, SoundAt R input r p seed → ∀ r' q o, (R.ledger input Log).Says
      (⟨r, p⟩ :: active) (Function.update σ ⟨r, p⟩ seed) r' q o → SoundAt R input r' q o :=
    fun _ hseed _ _ _ => soundAt_of_says (forall_mem_update hσ hseed)
  have hsound : ∀ seed o, SoundAt R input r p seed → Body g (.ofInput input)
      ((R.ledger input Log).Says (⟨r, p⟩ :: active) (Function.update σ ⟨r, p⟩ seed)) r p o →
      SoundAt R input r p o := fun seed o hseed hbody =>
    hbody.sound hg hR (hseeded seed hseed)
  refine ⟨h.invariant soundAt_none hsound, fun hr => ?_⟩
  -- Inside, the rule answers with its seed and all others with what they come to by themselves.
  refine .grown (fun seed r' q o => (r' = r ∧ q = p ∧ o = seed) ∨
    (Applies g (.ofInput input) .none r' q o ∧ R.rules r' ∧ q ≤ input.length ∧
      (p < q ∨ q = p ∧ r ≠ r' ∧ r ∉ g.reachOf r'))) rfl ?_ ?_
  · rintro seed r' q o (⟨rfl, rfl, rfl⟩ | ⟨happ, hr', hq, hfar⟩)
    · exact .seed (Seeds.set_self ..)
    · exact applies_set hg hR happ hr' hq hfar
  · refine (h.congr (P := SoundAt R input r p) soundAt_none fun seed o hseed hbody => ?_).1
    refine ⟨hbody.congr fun r' q o hv ha => ?_, hsound seed o hseed hbody⟩
    have hself := hmay.says_self hg hR hdirect hfresh (hseeded seed hseed) hr hv ha
    rwa [Function.update_self] at hself

end Applications

def reading (R : Region g) (hg : g.WellFormed) (hR : R.Satisfiable) (hdirect : R.Direct)
    (observer : Observer ω) (input : Input) (Log : ω → Prop)
    (hnoted : ∀ {active s event},
      Kept (R.ledger input Log) g (Subject.ofInput input).length active s →
      (∀ r p, event = .rule r p .replayed → ∃ e, s.memo.get? p r = some e ∧ e.isFinal = true) →
      Log (observer.note active s.memo event s.log)) :
    Reading (⟨g, .ofInput input, observer⟩ : Task ω) where
  toLedger := R.ledger input Log
  May := R.May input.length
  inRange h := ⟨h.1, by rw [Subject.length_ofInput]; exact h.2.1⟩
  final_bounded r q f hq h := by
    rw [Subject.length_ofInput] at hq ⊢
    exact (h.1 f rfl hq).1
  seed_bounded r q f hq h := by
    rw [Subject.length_ofInput] at hq ⊢
    exact (h f rfl hq).1
  start _ _ := soundAt_none
  met _ _ := trivial
  visits hmay _ hσ hv := hmay.visits hg hR (fun _ _ _ => soundAt_of_says hσ) hv
  stage _ _ hσ hbody := hbody.sound hg hR fun _ _ _ => soundAt_of_says hσ
  grown hmay hfresh hσ hgrow := hmay.grown hg hR hdirect hfresh hσ hgrow
  noted h htells := hnoted h fun r p heq => by
    subst heq
    exact htells.2

/-- An application of a rule of the region, with room for it, comes to what the rule means. -/
theorem apply_nil_meets (hg : g.WellFormed) (hR : R.Satisfiable) (hdirect : R.Direct)
    (hr : R.rules r) (hlt : r < g.rules.size) (hp : p ≤ input.length) (observer : Observer ω)
    (room : Nat) (f : Failure) (log : ω) :
    Meets (fun _ => room ≤ g.rules.size * (input.length + 1))
      (fun o _ => Applies g (.ofInput input) .none r p o)
      (Task.apply ⟨g, .ofInput input, observer⟩ room [] r p ⟨.empty, f, log⟩) := by
  let L := R.reading hg hR hdirect observer input (fun _ => True) fun _ _ => trivial
  have hmay : L.May [] r p := ⟨hlt, hp, fun c hc => absurd hc List.not_mem_nil⟩
  have hmeets := L.apply_nil_meets hg rfl room f (show L.Log log from trivial) hmay
  rw [← Subject.length_ofInput]
  exact (hmeets.imp fun _ _ h => h.1.2 hr).imp_abort fun _ h => h.1

end Region

/-! ### Parsing -/

namespace Parser

variable {parser : Parser} {input : Input} {r : RuleId}

theorem isLimit_of_refusal {e : ParseError}
    (hmode : ∀ mode, parser.grammar.mode? = some mode → mode = input.mode)
    (h : refusal parser.grammar parser.config input = some e) : e.isLimit = true := by
  have hsize : ∀ {e}, oversized parser.config input = some e → e.isLimit = true := by
    intro e he
    rw [oversized] at he
    split at he
    · cases he
      rfl
    · contradiction
  rw [refusal] at h
  split at h
  · rename_i mode hm
    rw [if_pos (hmode mode hm)] at h
    exact hsize h
  · exact hsize h

/-- What a verdict says of the start rule, `P` being what the rule came to. -/
theorem conclude_cases {ω : Type} {abort : Prop} {P : Option Found → Prop}
    {result : Outcome Found × Session ω}
    (hresult : Meets (fun _ => abort) (fun o _ => P o) result)
    (hstop : ∀ f, P (some f) → f.stop ≤ input.length) :
    (∃ t, conclude (.ofInput input) result = .ok t ∧ P (some ⟨t, input.length⟩)) ∨
      (∃ f position expected location,
        conclude (.ofInput input) result = .error (.incomplete f.stop position expected location) ∧
          f.stop < input.length ∧ P (some f)) ∨
      (∃ position expected location,
        conclude (.ofInput input) result = .error (.failed position expected location) ∧ P none) ∨
      ∃ e, conclude (.ofInput input) result = .error e ∧ e.isLimit = true ∧ abort := by
  obtain ⟨outcome, s⟩ := result
  cases outcome with
  | ok f =>
      have hf : P (some f) := hresult
      unfold conclude
      dsimp only
      rw [Subject.length_ofInput]
      split
      · rename_i hend
        refine .inl ⟨f.tree, rfl, ?_⟩
        rw [← hend]
        exact hf
      · rename_i hend
        exact .inr (.inl ⟨f, _, _, _, rfl, Nat.lt_of_le_of_ne (hstop f hf) hend, hf⟩)
  | backtrack f => exact .inr (.inr (.inl ⟨_, _, _, rfl, hresult⟩))
  | abort e => exact .inr (.inr (.inr ⟨e, rfl, hresult⟩))

theorem verdict_iff {P : Option Found → Prop} {length : Nat} {verdict : Except ParseError ParseTree}
    (hunique : ∀ {o o'}, P o → P o' → o = o')
    (h : (∃ t, verdict = .ok t ∧ P (some ⟨t, length⟩)) ∨
      (∃ f position expected location,
        verdict = .error (.incomplete f.stop position expected location) ∧
          f.stop < length ∧ P (some f)) ∨
      ∃ position expected location,
        verdict = .error (.failed position expected location) ∧ P none) :
    (∀ t, verdict = .ok t ↔ P (some ⟨t, length⟩)) ∧
      (∀ stop, (∃ position expected location,
          verdict = .error (.incomplete stop position expected location)) ↔
        stop < length ∧ ∃ t, P (some ⟨t, stop⟩)) ∧
      ((∃ position expected location, verdict = .error (.failed position expected location)) ↔
        P none) := by
  rcases h with ⟨t, rfl, ht⟩ | ⟨f, position, expected, location, rfl, hlt, hf⟩ |
    ⟨position, expected, location, rfl, hnone⟩
  · refine ⟨fun t' => ⟨fun h => ?_, fun h => ?_⟩, fun stop => ⟨nofun, fun ⟨hlt, t', h⟩ => ?_⟩,
      nofun, fun h => nomatch hunique ht h⟩
    · cases h
      exact ht
    · cases hunique ht h
      rfl
    · cases hunique ht h
      exact absurd hlt (Nat.lt_irrefl _)
  · refine ⟨fun t => ⟨nofun, fun h => ?_⟩,
      fun stop => ⟨fun ⟨_, _, _, h⟩ => ?_, fun ⟨_, t, h⟩ => ?_⟩, nofun,
      fun h => nomatch hunique hf h⟩
    · cases hunique hf h
      exact absurd hlt (Nat.lt_irrefl _)
    · cases h
      exact ⟨hlt, f.tree, hf⟩
    · cases hunique hf h
      exact ⟨position, expected, location, rfl⟩
  · exact ⟨fun t => ⟨nofun, fun h => nomatch hunique hnone h⟩,
      fun stop => ⟨nofun, fun ⟨_, t, h⟩ => nomatch hunique hnone h⟩,
      fun _ => hnone, fun _ => ⟨position, expected, location, rfl⟩⟩

theorem run_fst_eq {ω : Type} (observer : Observer ω) (log : ω)
    (h : refusal parser.grammar parser.config input = none) :
    (parser.run observer log r input).1 = conclude (.ofInput input)
      (Task.apply ⟨parser.grammar, .ofInput input, observer⟩ parser.config.maxDepth [] r 0
        ⟨.empty, .here 0, log⟩) := by
  rw [run_accepted h, evaluate_reset]

theorem lt_of_ruleId? {g : Grammar} {name : String} (h : g.ruleId? name = some r) :
    r < g.rules.size := by
  rw [Grammar.ruleId?, Array.findIdx?_eq_some_iff_getElem] at h
  exact h.1

/-- Parsing is what the start rule comes to, unless a limit ends it. The grammar may be any with
direct left recursion only, in which no repetition asks for more than it allows. -/
theorem parseRule_iff_applies {atoms : Array Atom} {rules : Array Rule} {root : RuleId}
    (hg : Grammar.ofParts atoms rules root = .ok parser.grammar)
    (hrepetition : ∀ (id a : AtomId) (min max : Nat),
      parser.grammar.atoms[id]? = some (.repetition a min (some max)) → min ≤ max)
    (hdirect : ∀ a b, b ∈ parser.grammar.leftEdge.reachOf a →
      a ∈ parser.grammar.leftEdge.reachOf b → a = b)
    {name : String} (hname : parser.grammar.ruleId? name = some r)
    (hmode : ∀ mode, parser.grammar.mode? = some mode → mode = input.mode)
    (hlimit : ∀ e, (parser.parseRule name input).1 = .error e → e.isLimit = false) :
    (∀ t, (parser.parseRule name input).1 = .ok t ↔
        Applies parser.grammar (.ofInput input) .none r 0 (some ⟨t, input.length⟩)) ∧
      (∀ stop, (∃ position expected location, (parser.parseRule name input).1 =
            .error (.incomplete stop position expected location)) ↔
          stop < input.length ∧
            ∃ t, Applies parser.grammar (.ofInput input) .none r 0 (some ⟨t, stop⟩)) ∧
      ((∃ position expected location, (parser.parseRule name input).1 =
            .error (.failed position expected location)) ↔
          Applies parser.grammar (.ofInput input) .none r 0 none) := by
  obtain ⟨hwf, -⟩ := Grammar.ofParts_eq_ok hg
  have hsat : hwf.region.Satisfiable := fun _ hatom => Nat.le_zero.1 (hrepetition _ _ _ _ hatom)
  have hr := lt_of_ruleId? hname
  obtain ⟨_, observer, log, hrecord⟩ := parser.exists_run_eq_record r input
  have hresult : (parser.parseRule name input).1 = (parser.run observer log r input).1 := by
    rw [parseRule, hname]
    exact hrecord
  rw [hresult] at hlimit ⊢
  cases hrefusal : refusal parser.grammar parser.config input with
  | some e =>
      have hrun : (parser.run observer log r input).1 = .error e := by
        rw [run_refused hrefusal]
      cases (hlimit e hrun).symm.trans (isLimit_of_refusal hmode hrefusal)
  | none =>
      have hmeets := hwf.region.apply_nil_meets hwf hsat (fun a b _ _ => hdirect a b) hr hr
        (Nat.zero_le input.length) observer parser.config.maxDepth (.here 0) log
      have hstop : ∀ f, Applies parser.grammar (.ofInput input) .none r 0 (some f) →
          f.stop ≤ input.length := fun f h =>
        (h.sound (R := hwf.region) hwf hsat Seeds.sound_none f rfl (Nat.zero_le _)).1.2
      rw [run_fst_eq observer log hrefusal] at hlimit ⊢
      apply verdict_iff fun {o o'} h h' => h.unique h'
      rcases conclude_cases hmeets hstop with h | h | h | ⟨e, heq, he, -⟩
      · exact .inl h
      · exact .inr (.inl h)
      · exact .inr (.inr h)
      · cases (hlimit e heq).symm.trans he

/-- `sum: sum '+' num | num` with `num: num 'd' | 'd'`. -/
def sums : Grammar where
  atoms := #[.rule 0, .literal "+", .rule 1, .sequence [0, 1, 2], .choice [3, 2], .literal "d",
    .sequence [2, 5], .choice [6, 5]]
  rules := #[⟨"sum", 4⟩, ⟨"num", 7⟩]
  root := 0
  matchers := Array.replicate 8 none

theorem ofParts_sums : Grammar.ofParts sums.atoms sums.rules 0 = .ok sums := by
  with_unfolding_all rfl

/-- Two rules grow inside each other at the start of `dd+d`. -/
theorem parseRule_sums :
    ∃ t, ((ofGrammar sums {}).parseRule "sum" (.text "dd+d")).1 = .ok t ∧
      Applies sums (.ofInput (.text "dd+d")) .none 0 0 (some ⟨t, 4⟩) := by
  cases hresult : ((ofGrammar sums {}).parseRule "sum" (.text "dd+d")).1 with
  | error e =>
      have hok : ((ofGrammar sums {}).parseRule "sum" (.text "dd+d")).1.isOk = true := by
        decide +kernel
      rw [hresult] at hok
      contradiction
  | ok t =>
      have hdirect : ∀ a < 2, ∀ b < 2, b ∈ sums.leftEdge.reachOf a → a ∈ sums.leftEdge.reachOf b →
          a = b := by
        decide +kernel
      have hg : Grammar.ofParts sums.atoms sums.rules 0 = .ok (ofGrammar sums {}).grammar :=
        ofParts_sums
      have hlimit : ∀ e, ((ofGrammar sums {}).parseRule "sum" (.text "dd+d")).1 = .error e →
          e.isLimit = false := fun e he => nomatch hresult.symm.trans he
      have hname : (ofGrammar sums {}).grammar.ruleId? "sum" = some 0 := by
        decide +kernel
      have hrepetition : ∀ (id a : AtomId) (min max : Nat),
          sums.atoms[id]? = some (.repetition a min (some max)) → min ≤ max := by
        intro id a min max hatom
        simpa [sums] using Array.mem_of_getElem? hatom
      have hiff := parseRule_iff_applies hg hrepetition
        (fun a b hb ha => hdirect a (Grammar.lt_of_mem_reachOf hb) b (Grammar.lt_of_mem_reachOf ha)
          hb ha)
        hname (by decide +kernel) hlimit
      exact ⟨t, rfl, (hiff.1 t).1 hresult⟩

end Parser

end Seedling
