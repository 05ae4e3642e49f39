import Seedling.Grammar.Lint
import Seedling.Proofs.Parse.Depth

/-!
The left edge covers what a parse does. What matches without consuming is nullable, and what is
applied inside others at the same position is on the left edge of each of them. So only left
recursive rules are met again or grow, and where there are none, nothing is ever dropped from
the memo table.

These are statements about everything that an observer sees of a parse, also of one that is
given up.
-/

namespace Seedling

/-- A rule is applied inside the applications `around`: it is entered, answered from the table,
or met again. -/
inductive Sight.Applies (r : RuleId) (p : Nat) : List Call → Sight → Prop where
  | entered {around memo} : Applies r p around ⟨⟨r, p⟩ :: around, memo, .rule r p .enter⟩
  | replayed {around memo} : Applies r p around ⟨around, memo, .rule r p .replayed⟩
  | reentered {around memo} : Applies r p around ⟨around, memo, .rule r p .reentered⟩

/-- What is seen is covered by the left edge. -/
structure Sight.Covered (g : Grammar) (x : Sight) : Prop where
  nullable : ∀ id p, x.event = .atom id p (some p) → g.leftEdge.isNullable id = true
  applied : ∀ {r p around}, Sight.Applies r p around x → ∀ c ∈ around, c.position = p →
    r ∈ g.leftEdge.reachOf c.rule
  reentered : ∀ r p, x.event = .rule r p .reentered → g.leftEdge.isLeftRecursive r = true
  grown : ∀ r p stop, x.event = .rule r p (.grow stop) → g.leftEdge.isLeftRecursive r = true

section Reading

variable {ω : Type} {g : Grammar} {input : Input}

def edgeLedger (R : Region g) (input : Input) (Log : ω → Prop) : Ledger ω where
  Final := SoundAt R input
  Seed := SoundAt R input
  Met r _ := r ∈ g.reachOf r
  Log := Log

theorem soundAt_of_edgeSays {R : Region g} {Log : ω → Prop} {active : List Call}
    {σ : Call → Option Found} (hσ : ∀ c ∈ active, SoundAt R input c.rule c.position (σ c))
    {r : RuleId}
    {p : Nat} {o : Option Found} (h : (edgeLedger R input Log).Says active σ r p o) :
    SoundAt R input r p o :=
  h.imp (fun _ _ _ hfinal => hfinal) hσ

def edgeReading (hg : g.WellFormed) (hR : hg.region.Satisfiable) (observer : Observer ω)
    (input : Input) (Log : ω → Prop)
    (hnoted : ∀ {active s event},
      Kept (edgeLedger hg.region input Log) g (Subject.ofInput input).length active s →
      (edgeLedger hg.region input Log).Tells ⟨g, .ofInput input, observer⟩
        (hg.region.May input.length) active s event →
      Log (observer.note active s.memo event s.log)) :
    Reading (⟨g, .ofInput input, observer⟩ : Task ω) where
  toLedger := edgeLedger hg.region input Log
  May := hg.region.May input.length
  inRange h := ⟨h.1, by rw [Subject.length_ofInput]; exact h.2.1⟩
  final_bounded r q f hq h := by
    rw [Subject.length_ofInput] at hq ⊢
    exact (h f rfl hq).1
  seed_bounded r q f hq h := by
    rw [Subject.length_ofInput] at hq ⊢
    exact (h f rfl hq).1
  start _ _ := soundAt_none
  met hmay hactive := by
    obtain ⟨-, hlt | ⟨-, hreach⟩⟩ := hmay.2.2 _ hactive hmay.1
    · exact absurd hlt (Nat.lt_irrefl _)
    · exact hreach
  visits hmay _ hσ hv := hmay.visits hg hR (fun _ _ _ => soundAt_of_edgeSays hσ) hv
  stage _ _ hσ hbody := hbody.sound hg hR fun _ _ _ => soundAt_of_edgeSays hσ
  grown _ _ hσ hgrow := hgrow.invariant soundAt_none fun _ _ hseed hbody =>
    hbody.sound hg hR fun _ _ _ => soundAt_of_edgeSays (forall_mem_update hσ hseed)
  noted := hnoted

theorem isLeftRecursive_iff {r : RuleId} : g.leftEdge.isLeftRecursive r = true ↔ r ∈ g.reachOf r :=
  decide_eq_true_iff

variable (hg : g.WellFormed) (hR : hg.region.Satisfiable)

include hR in
theorem covered_of_tells {Log : ω → Prop} {observer : Observer ω} {active : List Call}
    {s : Session ω} {event : Event}
    (hkept : Kept (edgeLedger hg.region input Log) g (Subject.ofInput input).length active s)
    (htells : (edgeLedger hg.region input Log).Tells ⟨g, .ofInput input, observer⟩
      (hg.region.May input.length) active s event) :
    Sight.Covered g ⟨active, s.memo, event⟩ where
  nullable id p hevent := by
    obtain rfl : event = .atom id p (some p) := hevent
    obtain ⟨hp, x, hx, hstop⟩ := htells
    obtain ⟨x, rfl, hend⟩ := Option.map_eq_some_iff.1 hstop.symm
    rw [Subject.length_ofInput] at hp
    have hid : id < g.atoms.size := by
      cases hx with
      | atom hatom => exact (Array.getElem?_eq_some_iff.1 hatom).1
    -- The seeds are sound, so what the atom rests on is.
    have hA : ∀ r q o, (edgeLedger hg.region input Log).Says active (Reading.seedsOf s) r q o →
        SoundAt hg.region input r q o := fun r q o => soundAt_of_edgeSays fun c hc => by
      obtain ⟨e, he, hopen⟩ := (hkept.inProgress c.rule c.position).1 hc
      rw [Reading.seedsOf_eq he]
      exact hkept.seeds he hopen
    exact hx.nullable hg hR (fun r q f hq ha => (hA r q _ ha f rfl hq).1)
      (fun r q f hr hq ha => (hA r q _ ha f rfl hq).2 hr) x rfl hend hp hid
  applied {r p around} happlies c hc hposition := by
    obtain ⟨hmay, hactive⟩ : hg.region.May input.length around r p ∧ c ∈ active := by
      cases happlies with
      | entered =>
          obtain ⟨around', heq, hmay⟩ := htells
          cases heq
          exact ⟨hmay, List.mem_cons_of_mem _ hc⟩
      | replayed => exact ⟨htells.1, hc⟩
      | reentered => exact ⟨htells.1, hc⟩
    obtain ⟨e, he, -⟩ := (hkept.inProgress c.rule c.position).1 hactive
    obtain ⟨-, hlt | ⟨-, hreach⟩⟩ := hmay.2.2 c hc (hkept.inRange he).1
    · exact absurd hposition (Nat.ne_of_lt hlt)
    · exact hreach
  reentered r p hevent := by
    obtain rfl : event = .rule r p .reentered := hevent
    obtain ⟨hmay, hactive⟩ := htells
    obtain ⟨-, hlt | ⟨-, hreach⟩⟩ := hmay.2.2 _ hactive hmay.1
    · exact absurd hlt (Nat.lt_irrefl _)
    · exact isLeftRecursive_iff.2 hreach
  grown r p stop hevent := by
    obtain rfl : event = .rule r p (.grow stop) := hevent
    exact isLeftRecursive_iff.2 htells.1

end Reading

/-! ### What stays in the memo table -/

def MemoTable.Retained (m m' : MemoTable) : Prop :=
  ∀ p r, (m.get? p r).isSome = true → (m'.get? p r).isSome = true

theorem MemoTable.Retained.of_marked {new : Nat → RuleId → RuleId → Prop}
    {again : Nat → RuleId → Prop}
    {m m' : MemoTable} (h : m.Marked new again m') : m.Retained m' := by
  intro p r hsome
  obtain ⟨e, he⟩ := Option.isSome_iff_exists.1 hsome
  obtain ⟨e', he', -⟩ := (h p r).2 e he
  rw [he']
  rfl

theorem MemoTable.retained_insert (m : MemoTable) (p : Nat) (r : RuleId) (e : Entry) :
    m.Retained (m.insert p r e) := by
  intro p' r' hsome
  rw [MemoTable.get?_insert]
  split
  · rfl
  · exact hsome

theorem MemoTable.retained_update (m : MemoTable) (p : Nat) (r : RuleId) (f : Entry → Entry) :
    m.Retained (m.update p r f) := by
  intro p' r' hsome
  rw [MemoTable.get?_update]
  split
  · rwa [Option.isSome_map]
  · exact hsome

theorem MemoTable.Retained.trans {m m' m'' : MemoTable} (h : m.Retained m') (h' : m'.Retained m'') :
    m.Retained m'' :=
  fun p r hsome => h' p r (h p r hsome)

/-- Everything that was seen in the table is there, and was whenever it was looked at since. -/
structure Retaining (s : Session (List Sight)) : Prop where
  now : ∀ x ∈ s.log, x.memo.Retained s.memo
  since : s.log.Pairwise fun later earlier => earlier.memo.Retained later.memo

section Retaining

variable {g : Grammar} {subject : Subject} {rules : RuleId → Prop} {s s' : Session (List Sight)}

theorem retained_reenter (s : Session (List Sight)) (active : List Call) (r : RuleId) (p : Nat) :
    s.memo.Retained (s.reenter active r p).memo := by
  rw [Session.reenter]
  split
  · exact (MemoTable.retained_update _ _ _ _).trans (MemoTable.retained_update _ _ _ _)
  · exact MemoTable.retained_update _ _ _ _

/-- A step drops nothing from the table, unless a seed has grown. -/
theorem Step.retained (h : Step ⟨g, subject, .sights⟩ rules s s') :
    (s.memo.Retained s'.memo ∧
        (s'.log = s.log ∨ ∃ active event, s'.log = ⟨active, s'.memo, event⟩ :: s.log)) ∨
      ∃ x r p stop, s'.log = x :: s.log ∧ x.event = .rule r p (.grow stop) := by
  cases h with
  | told | replayed => exact .inl ⟨fun _ _ h => h, .inr ⟨_, _, rfl⟩⟩
  | furthest => exact .inl ⟨fun _ _ h => h, .inl rfl⟩
  | lookup r p =>
      refine .inl ⟨fun p' r' h => ?_, .inl rfl⟩
      rwa [MemoTable.get?_lookup]
  | @reentered active r p =>
      refine .inl ⟨?_, .inr ⟨active, .rule r p .reentered, ?_⟩⟩
      · exact retained_reenter s active r p
      · rw [Session.note, Session.log_reenter]
        rfl
  | entered active =>
      refine .inl ⟨?_, .inr ⟨_, _, rfl⟩⟩
      exact (MemoTable.Retained.of_marked (marked_enlist s active _ _)).trans
        (MemoTable.retained_insert _ _ _ _)
  | settled => exact .inl ⟨MemoTable.retained_insert _ _ _ _, .inr ⟨_, _, rfl⟩⟩
  | grown _ _ _ hplant =>
      cases hplant
      exact .inr ⟨_, _, _, _, rfl, rfl⟩

theorem Retaining.step (hs : Retaining s) (h : s.memo.Retained s'.memo)
    (hlog : s'.log = s.log ∨ ∃ active event, s'.log = ⟨active, s'.memo, event⟩ :: s.log) :
    Retaining s' := by
  have hnow : ∀ x ∈ s.log, x.memo.Retained s'.memo := fun x hx => (hs.now x hx).trans h
  rcases hlog with hlog | ⟨active, event, hlog⟩
  · constructor <;> rw [hlog]
    · exact hnow
    · exact hs.since
  · constructor <;> rw [hlog]
    · intro x hx
      rcases List.mem_cons.1 hx with rfl | hx
      · exact fun _ _ hsome => hsome
      · exact hnow x hx
    · exact List.pairwise_cons.2 ⟨hnow, hs.since⟩

theorem Retaining.steps (hs : Retaining s) (h : Steps ⟨g, subject, .sights⟩ rules s s') :
    Retaining s' ∨ ∃ x ∈ s'.log, ∃ r p stop, x.event = .rule r p (.grow stop) := by
  induction h with
  | refl => exact .inl hs
  | tail hsteps hstep ih =>
      rcases ih with hs | ⟨x, hx, hgrown⟩
      · rcases hstep.retained with ⟨hretained, hlog⟩ | ⟨x, r, p, stop, hlog, hevent⟩
        · exact .inl (hs.step hretained hlog)
        · exact .inr ⟨x, by rw [hlog]; exact List.mem_cons_self, r, p, stop, hevent⟩
      · exact .inr ⟨x, (Steps.suffix (.single hstep)).subset hx, hgrown⟩

end Retaining

/-! ### Parses -/

/-- The warnings name every rule that is left recursive. -/
theorem isLeftRecursive_eq_false {g : Grammar}
    (h : ∀ w ∈ g.warnings, w.finding ≠ .leftRecursion) (r : RuleId) :
    g.leftEdge.isLeftRecursive r = false := by
  by_contra hrec
  rw [Bool.not_eq_false] at hrec
  have hr := Grammar.lt_of_mem_reachOf (isLeftRecursive_iff.1 hrec)
  have hrule := Array.getElem?_eq_getElem hr
  refine h ⟨(g.rules[r]).name, .leftRecursion⟩ ?_ rfl
  refine List.mem_append_left _
    (List.mem_append_left _ (List.mem_filterMap.2 ⟨(g.rules[r], r), ?_, ?_⟩))
  · rw [List.mk_mem_zipIdx_iff_getElem?, Array.getElem?_toList]
    exact hrule
  · exact if_pos hrec

section Sights

variable {g : Grammar} {input : Input} {start : RuleId} {d : Nat}

/-- What is seen of a rule at the start of the input is covered, however it ends. -/
theorem attempt_covered (hg : g.WellFormed) (hR : hg.region.Satisfiable)
    (hstart : start < g.rules.size) :
    ∀ x ∈ (attempt g input .sights [] start d).2.log, x.Covered g := by
  let L := edgeReading hg hR .sights input (fun log => ∀ x ∈ log, x.Covered g)
    fun hkept htells x hx => by
    rcases List.mem_cons.1 hx with rfl | hx
    · exact covered_of_tells hg hR hkept htells
    · exact hkept.log x hx
  have hmay : L.May [] start 0 := ⟨hstart, Nat.zero_le _, fun c hc => absurd hc List.not_mem_nil⟩
  have hempty : L.Log [] := fun x hx => absurd hx List.not_mem_nil
  exact (L.apply_nil_meets hg rfl d (.here 0) hempty hmay).session (fun _ _ h => h.2) fun _ h => h.2

def Sight.traceEntry? (g : Grammar) (x : Sight) : Option TraceEntry :=
  match x.event with
  | .rule r p action => some ⟨p, g.ruleName r, action, Observer.depth x.active action⟩
  | _ => none

theorem exists_attempt_trace_eq : ∃ seen, seen <:+ (attempt g input .sights [] start d).2.log ∧
    (attempt g input (.tracer g) [] start d).2.log = seen.filterMap (Sight.traceEntry? g) := by
  let Same : List TraceEntry → List Sight → Prop := fun trace log =>
    trace = log.filterMap (Sight.traceEntry? g)
  have hsame : (Observer.tracer g).Agree .sights Same := by
    rintro active memo event trace log rfl
    cases event with
    | rule | tries | tried | atom => rfl
  have hholds : (widening g (.ofInput input) hsame d []).Holds
      (attempt g input (.tracer g) [] start d) (attempt g input .sights [] start d) :=
    apply_widens hsame (Nat.le_refl d) rfl ⟨rfl, rfl, rfl⟩
  rcases hholds with ⟨-, -, hsession⟩ | ⟨-, t₀, hsession, hgoes⟩
  · exact ⟨_, List.suffix_rfl, hsession.log⟩
  · exact ⟨_, hgoes.suffix, hsession.log⟩

/-- A trace has an entry only for what is seen. -/
def Traced (g : Grammar) (trace : List TraceEntry) (log : List Sight) : Prop :=
  ∀ e ∈ trace, ∃ x ∈ log, ∃ r p, x.event = .rule r p e.action ∧ e.rule = g.ruleName r

theorem attempt_traced :
    Traced g (attempt g input (.tracer g) [] start d).2.log
      (attempt g input .sights [] start d).2.log := by
  obtain ⟨seen, hseen, htrace⟩ := @exists_attempt_trace_eq g input start d
  intro e he
  rw [htrace] at he
  obtain ⟨⟨active, memo, event⟩, hx, hentry⟩ := List.mem_filterMap.1 he
  cases event with
  | rule r p action =>
      cases hentry
      exact ⟨_, hseen.subset hx, r, p, rfl, rfl⟩
  | tries | tried | atom => contradiction

end Sights

def Event.isGrowth : Event → Bool
  | .rule _ _ (.grow _) => true
  | _ => false

theorem Event.exists_of_isGrowth {event : Event} (h : event.isGrowth = true) :
    ∃ r p stop, event = .rule r p (.grow stop) := by
  unfold isGrowth at h
  split at h
  · exact ⟨_, _, _, rfl⟩
  · contradiction

namespace Parser

variable {parser : Parser} {input : Input} {start : RuleId}

/-- The left edge covers every point of a parse: what matches without consuming is nullable,
what is applied inside others at the same position is on the left edge of each of them, and only
left recursive rules are met again or grow, in what is seen and in the trace. Without warnings
about left recursion nothing is dropped from the memo table. -/
theorem run_covered {atoms : Array Atom} {rules : Array Rule} {root : RuleId}
    (hg : Grammar.ofParts atoms rules root = .ok parser.grammar)
    (hstart : start < parser.grammar.rules.size)
    (hrepetition : ∀ (id a : AtomId) (min : Nat),
      parser.grammar.atoms[id]? = some (.repetition a min (some 0)) → min = 0) :
    (∀ x ∈ (parser.run .sights [] start input).2.1, x.Covered parser.grammar) ∧
      (∀ e ∈ (parser.run (.tracer parser.grammar) [] start input).2.1,
        e.action = .reentered ∨ (∃ stop, e.action = .grow stop) →
          ∃ r, e.rule = parser.grammar.ruleName r ∧
            parser.grammar.leftEdge.isLeftRecursive r = true) ∧
      ((∀ w ∈ parser.grammar.warnings, w.finding ≠ .leftRecursion) →
        (parser.run .sights [] start input).2.1.Pairwise
            (fun later earlier => earlier.memo.Retained later.memo) ∧
          ∀ x ∈ (parser.run .sights [] start input).2.1,
            x.memo.Retained (parser.run .sights [] start input).2.2.memo) := by
  obtain ⟨hwf, -⟩ := Grammar.ofParts_eq_ok hg
  have hR : hwf.region.Satisfiable := fun _ hatom => hrepetition _ _ _ hatom
  cases hrefusal : refusal parser.grammar parser.config input with
  | some e =>
      simp only [run_refused hrefusal]
      refine ⟨List.forall_mem_nil _, List.forall_mem_nil _, fun _ => ⟨.nil, List.forall_mem_nil _⟩⟩
  | none =>
      rw [run_eq_attempt hrefusal, run_eq_attempt hrefusal]
      have hcovered :
          ∀ x ∈ (attempt parser.grammar input .sights [] start parser.config.maxDepth).2.log,
            x.Covered parser.grammar := attempt_covered hwf hR hstart
      refine ⟨hcovered, fun e he haction => ?_, fun hwarnings => ?_⟩
      · obtain ⟨x, hx, r, p, hevent, hrule⟩ := attempt_traced e he
        refine ⟨r, hrule, ?_⟩
        rcases haction with haction | ⟨stop, haction⟩ <;> rw [haction] at hevent
        · exact (hcovered x hx).reentered r p hevent
        · exact (hcovered x hx).grown r p stop hevent
      · have hstart : Retaining ⟨.empty, .here 0, []⟩ := ⟨List.forall_mem_nil _, .nil⟩
        rcases hstart.steps (Task.apply_goes _ _ _ _ _ _)
          with hretaining | ⟨x, hx, r, p, stop, hevent⟩
        · exact ⟨hretaining.since, hretaining.now⟩
        · cases ((hcovered x hx).grown r p stop hevent).symm.trans
            (isLeftRecursive_eq_false hwarnings r)

/-- `s: !r 'a' | r? 'z'` with `r: 'c'`. -/
def peeking : Grammar where
  atoms := #[.rule 1, .lookahead 0 false, .literal "a", .sequence [1, 2], .repetition 0 0 (some 1),
    .literal "z", .sequence [4, 5], .choice [3, 6], .literal "c"]
  rules := #[⟨"s", 7⟩, ⟨"r", 8⟩]
  root := 0
  matchers := Array.replicate 9 none

theorem ofParts_peeking : Grammar.ofParts peeking.atoms peeking.rules 0 = .ok peeking := by
  with_unfolding_all rfl

/-- In `ayx` a seed of `crossed` grows, and its rule is left recursive. In `b` the entry that
`peeking` makes when it looks ahead for `r` is there to the end. -/
theorem run_covered_crossed_peeking :
    (∃ x ∈ (roomy.run .sights [] 0 (.text "ayx")).2.1, ∃ r p stop,
      x.event = .rule r p (.grow stop) ∧
        crossed.leftEdge.isLeftRecursive r = true) ∧
      ∃ x ∈ ((ofGrammar peeking {}).run .sights [] 0 (.text "b")).2.1,
        (x.memo.get? 0 1).isSome = true ∧
          (((ofGrammar peeking {}).run .sights [] 0 (.text "b")).2.2.memo.get? 0 1).isSome =
            true := by
  constructor
  · have hgrown : ∃ x ∈ (roomy.run .sights [] 0 (.text "ayx")).2.1, x.event.isGrowth = true := by
      decide +kernel
    obtain ⟨x, hx, hgrowth⟩ := hgrown
    obtain ⟨r, p, stop, hevent⟩ := Event.exists_of_isGrowth hgrowth
    have hcovered := (@run_covered roomy (.text "ayx") 0 _ _ _ ofParts_crossed (by decide) (by
      intro id a min hatom
      simpa [roomy, ofGrammar, crossed] using Array.mem_of_getElem? hatom)).1 x hx
    exact ⟨x, hx, r, p, stop, hevent, hcovered.grown r p stop hevent⟩
  · have hentry : ∃ x ∈ ((ofGrammar peeking {}).run .sights [] 0 (.text "b")).2.1,
        (x.memo.get? 0 1).isSome = true := by
      decide +kernel
    obtain ⟨x, hx, hsome⟩ := hentry
    have hretained := ((@run_covered (ofGrammar peeking {}) (.text "b") 0 _ _ _ ofParts_peeking
      (by decide) (by
        intro id a min hatom
        simpa [ofGrammar, peeking] using Array.mem_of_getElem? hatom)).2.2
          (by decide +kernel)).2 x hx
    exact ⟨x, hx, hsome, hretained 0 1 hsome⟩

end Parser

end Seedling
