import Seedling.Proofs.Parse.Course
import Seedling.Proofs.Parse.Recursion
import Seedling.Proofs.Parse.Traces

/-!
Packrat parsing. Where no seed grows an entry stays in the memo table once it is made, and keeps
its result once it is final. A rule is entered only where it has no entry, so without left
recursion its body is evaluated at most once at each position, and the table misses no more
often than there are rules and positions.
-/

namespace Seedling

open Unlimited

/-! ### Tables that keep what they have -/

namespace MemoTable

/-- Every entry of a table is in the other one, too, and a final one has the same result there. -/
def Keeps (m m' : MemoTable) : Prop :=
  ∀ p r e, m.get? p r = some e → ∃ e', m'.get? p r = some e' ∧
    (e.isFinal = true → e'.state = e.state ∧ e'.found? = e.found? ∧ e'.failure = e.failure)

variable {m m' m'' : MemoTable} {p : Nat} {r : RuleId}

theorem Keeps.of_get? (h : ∀ p r, m'.get? p r = m.get? p r) : m.Keeps m' :=
  fun p r e he => ⟨e, (h p r).trans he, fun _ => ⟨rfl, rfl, rfl⟩⟩

theorem Keeps.trans (h : m.Keeps m') (h' : m'.Keeps m'') : m.Keeps m'' := by
  intro p r e he
  obtain ⟨e', he', hsame⟩ := h p r e he
  obtain ⟨e'', he'', hsame'⟩ := h' p r e' he'
  refine ⟨e'', he'', fun hfinal => ?_⟩
  obtain ⟨hstate, hfound, hfailure⟩ := hsame hfinal
  obtain ⟨hstate', hfound', hfailure'⟩ := hsame' (by rwa [Entry.isFinal, hstate])
  exact ⟨hstate'.trans hstate, hfound'.trans hfound, hfailure'.trans hfailure⟩

theorem Keeps.of_marked {new : Nat → RuleId → RuleId → Prop} {again : Nat → RuleId → Prop}
    (h : m.Marked new again m') : m.Keeps m' := by
  intro p r e he
  obtain ⟨e', he', hmarked⟩ := (h p r).2 e he
  exact ⟨e', he', fun hfinal => ⟨hmarked.state hfinal, hmarked.found, hmarked.failure⟩⟩

theorem Keeps.insert (h : m.Keeps m') (hopen : ∀ e, m.get? p r = some e → e.isFinal = false)
    (entry : Entry) : m.Keeps (m'.insert p r entry) := by
  intro p' r' e he
  rw [get?_insert]
  split
  · rename_i hsite
    obtain ⟨rfl, rfl⟩ := hsite
    exact ⟨entry, rfl, fun hfinal => by cases hfinal.symm.trans (hopen e he)⟩
  · exact h p' r' e he

theorem Keeps.get?_eq_none (h : m.Keeps m') (hnone : m'.get? p r = none) : m.get? p r = none := by
  cases he : m.get? p r with
  | none => rfl
  | some e =>
      obtain ⟨e', he', -⟩ := h p r e he
      cases hnone.symm.trans he'

end MemoTable

/-! ### Sessions that keep what they have -/

def Growthless (log : List Sight) : Prop := ∀ x ∈ log, x.event.isGrowth = false

/-- What is kept from an earlier to a later sight; and what is entered later had no entry. -/
structure Sight.Follows (later earlier : Sight) : Prop where
  keeps : earlier.memo.Keeps later.memo
  fresh : ∀ r p, later.event = .rule r p .enter → earlier.memo.get? p r = none

/-- Everything that was seen in the table is kept, and was whenever it was looked at since. -/
structure Session.Remembers (s : Session (List Sight)) : Prop where
  now : ∀ x ∈ s.log, x.memo.Keeps s.memo
  since : s.log.Pairwise Sight.Follows
  entry : ∀ x ∈ s.log, ∀ r p, x.event = .rule r p .enter → x.memo.get? p r ≠ none

namespace Session.Remembers

variable {s : Session (List Sight)} {m : MemoTable}

theorem table (hs : s.Remembers) (hm : s.memo.Keeps m) : Session.Remembers { s with memo := m } :=
  ⟨fun x hx => (hs.now x hx).trans hm, hs.since, hs.entry⟩

theorem note (hs : s.Remembers) (active : List Call) (event : Event) {f : Failure}
    (hm : s.memo.Keeps m)
    (hevent : ∀ r p, event = .rule r p .enter → s.memo.get? p r = none ∧ m.get? p r ≠ none) :
    Session.Remembers ⟨m, f, ⟨active, m, event⟩ :: s.log⟩ where
  now := List.forall_mem_cons.2 ⟨.of_get? fun _ _ => rfl, fun x hx => (hs.now x hx).trans hm⟩
  since := List.pairwise_cons.2 ⟨fun x hx => ⟨(hs.now x hx).trans hm, fun r p henter =>
    (hs.now x hx).get?_eq_none (hevent r p henter).1⟩, hs.since⟩
  entry := List.forall_mem_cons.2 ⟨fun r p henter => (hevent r p henter).2, hs.entry⟩

end Session.Remembers

def remembering (g : Grammar) (subject : Subject) :
    Course (⟨g, subject, .sights⟩ : Task (List Sight)) where
  Le _ s s' := Growthless s'.log → Growthless s.log ∧ (s.Remembers → s'.Remembers)
  Grows _ r p s s' := Growthless s'.log → Growthless s.log ∧
    ((∃ e, s.memo.get? p r = some e ∧ e.isFinal = false) → s.Remembers → s'.Remembers)
  refl h := ⟨h, id⟩
  trans h h' hlog := by
    obtain ⟨hlog', hs'⟩ := h' hlog
    obtain ⟨hlog, hs⟩ := h hlog'
    exact ⟨hlog, fun h => hs' (hs h)⟩
  told hevent hlog :=
    ⟨(List.forall_mem_cons.1 hlog).2, fun hs => hs.note _ _ (.of_get? fun _ _ => rfl)
      fun r p henter => absurd henter (hevent r p _)⟩
  furthest _ hlog := ⟨hlog, fun hs => ⟨hs.now, hs.since, hs.entry⟩⟩
  lookup r p hlog := ⟨hlog, fun hs => hs.table (.of_get? fun _ _ => MemoTable.get?_lookup ..)⟩
  replayed _ _ hlog :=
    ⟨(List.forall_mem_cons.1 hlog).2, fun hs => hs.note _ _ (.of_get? fun _ _ => rfl)
      (by simp)⟩
  reentered he hopen hactive hlog := by
    rw [Session.note, Session.log_reenter] at hlog ⊢
    exact ⟨(List.forall_mem_cons.1 hlog).2, fun hs =>
      hs.note _ _ (.of_marked (marked_reenter hactive he hopen)) (by simp)⟩
  entered {active r p s _} hnone hgrows hlog := by
    obtain ⟨hlog, hgrows⟩ := hgrows hlog
    refine ⟨(List.forall_mem_cons.1 hlog).2,
      fun hs => hgrows ⟨_, MemoTable.get?_insert_self _ p r _, rfl⟩ ?_⟩
    have hkeeps : s.memo.Keeps (s.enlist active r p).memo := .of_marked (marked_enlist s active r p)
    refine hs.note _ _ (hkeeps.insert (by simp [hnone]) _) ?_
    rintro _ _ ⟨⟩
    rw [MemoTable.get?_insert_self]
    exact ⟨hnone, Option.some_ne_none _⟩
  settled {active r p s attempt s₁ e entry action} hbody hle he _ _ haction hlog := by
    obtain ⟨hlog, hs₁⟩ := hle (List.forall_mem_cons.1 hlog).2
    refine ⟨hlog, fun ⟨e₀, he₀, hopen⟩ hs =>
      (hs₁ hs).note _ _ (.insert (.of_get? fun _ _ => rfl) ?_ _) ?_⟩
    · -- Its entry is still open, since the body is evaluated inside of it.
      obtain ⟨e₁, he₁, hmarked⟩ := hbody.course (lasting _) p r e₀ he₀
      intro e' he'
      cases he₁.symm.trans he'
      exact hmarked.final.trans hopen
    · rintro _ _ ⟨⟩
      simp at haction
  grown _ _ _ hplant hgrows hlog := by
    cases hplant
    cases (List.forall_mem_cons.1 (hgrows hlog).1).1

/-! ### The table at the end -/

/-- The table is the one that was seen last. -/
def Session.Current (s : Session (List Sight)) : Prop :=
  ∀ x before, s.log = x :: before → ∀ p r, s.memo.get? p r = x.memo.get? p r

section Steps

variable {g : Grammar} {subject : Subject} {rules : RuleId → Prop} {s s' : Session (List Sight)}

theorem Session.Current.step (hs : s.Current) (h : Step ⟨g, subject, .sights⟩ rules s s')
    (hlog : Growthless s'.log) : s'.Current := by
  cases h with
  | told | replayed | entered | settled =>
      rintro _ _ ⟨⟩ p r
      rfl
  | furthest => exact hs
  | lookup r p =>
      intro x before hx p' r'
      rw [MemoTable.get?_lookup]
      exact hs x before hx p' r'
  | reentered =>
      intro x before hx p' r'
      rw [Session.note, Session.log_reenter] at hx
      cases hx
      rfl
  | grown _ _ _ hplant =>
      cases hplant
      cases (List.forall_mem_cons.1 hlog).1

theorem Session.Current.steps (hs : s.Current) (h : Steps ⟨g, subject, .sights⟩ rules s s')
    (hlog : Growthless s'.log) : s'.Current := by
  induction h with
  | refl => exact hs
  | tail hsteps hstep ih =>
      have hsuffix := Steps.suffix (.single hstep)
      exact (ih fun x hx => hlog x (hsuffix.subset hx)).step hstep hlog

theorem Step.misses_le {ω : Type} {task : Task ω} {s s' : Session ω} (h : Step task rules s s') :
    s.memo.misses ≤ s'.memo.misses := by
  cases h with
  | told | furthest | replayed | settled => exact Nat.le_refl _
  | lookup r p =>
      rw [MemoTable.lookup]
      split
      · exact Nat.le_refl _
      · exact Nat.le_succ _
  | @reentered active r p =>
      exact Nat.le_of_eq (congrArg Prod.snd (s.counts_reenter active r p)).symm
  | @entered r p active => exact Nat.le_of_eq (congrArg Prod.snd (s.counts_enlist active r p)).symm
  | @grown _ _ r p e _ _ _ _ hplant =>
      cases hplant
      exact Nat.le_of_eq (congrArg Prod.snd (s.memo.counts_removeAll p e.dependents)).symm

theorem Steps.misses_le {ω : Type} {task : Task ω} {s s' : Session ω} (h : Steps task rules s s') :
    s.memo.misses ≤ s'.memo.misses := by
  induction h with
  | refl => exact Nat.le_refl _
  | tail _ hstep ih => exact ih.trans hstep.misses_le

end Steps

/-! ### What is entered -/

def Sight.entered? (x : Sight) : Option Call :=
  match x.event with
  | .rule r p .enter => some ⟨r, p⟩
  | _ => none

theorem Sight.event_of_entered? {x : Sight} {c : Call} (h : x.entered? = some c) :
    x.event = .rule c.rule c.position .enter := by
  unfold entered? at h
  split at h
  · rename_i hevent
    cases h
    exact hevent
  · contradiction

/-- What is remembered is not entered again. -/
theorem Session.Remembers.nodup {s : Session (List Sight)} (hs : s.Remembers) :
    (s.log.filterMap Sight.entered?).Nodup := by
  refine List.pairwise_filterMap.2
    (hs.since.imp_of_mem fun {later earlier} _ hearlier hfollows => ?_)
  rintro c hc _ hc' rfl
  exact hs.entry earlier hearlier c.rule c.position (Sight.event_of_entered? hc')
    (hfollows.fresh c.rule c.position (Sight.event_of_entered? hc))

section Attempts

variable {g : Grammar} {input : Input} {start : RuleId}

theorem attempt_remembers (hg : g.WellFormed) (hstart : start < g.rules.size)
    (hgrowth : ∀ d, Growthless (attempt g input .sights [] start d).2.log) (d : Nat) :
    (attempt g input .sights [] start d).2.Remembers := by
  obtain ⟨d', hperforms, hgoes⟩ := exists_performs_attempt hg hstart .sights [] d
  have hempty : Session.Remembers ⟨.empty, .here 0, []⟩ :=
    ⟨List.forall_mem_nil _, .nil, List.forall_mem_nil _⟩
  have hs := (hperforms.course (remembering g (.ofInput input)) (hgrowth d')).2 hempty
  have hsince := hs.since.sublist hgoes.suffix.sublist
  have hcurrent : (attempt g input .sights [] start d).2.Current := by
    refine Session.Current.steps ?_ (Task.apply_goes _ _ _ _ _ _) (hgrowth d)
    intro x before hx
    contradiction
  refine ⟨fun x hx => ?_, hsince, fun x hx => hs.entry x (hgoes.suffix.subset hx)⟩
  cases hlog : (attempt g input .sights [] start d).2.log with
  | nil =>
      rw [hlog] at hx
      contradiction
  | cons y before =>
      rw [hlog] at hx hsince
      have hlast : y.memo.Keeps (attempt g input .sights [] start d).2.memo :=
        .of_get? (hcurrent y before hlog)
      rcases List.mem_cons.1 hx with rfl | hx
      · exact hlast
      · exact ((List.pairwise_cons.1 hsince).1 x hx).keeps.trans hlast

theorem attempt_inRange (hg : g.WellFormed) (hstart : start < g.rules.size) (d : Nat) :
    ∀ x ∈ (attempt g input .sights [] start d).2.log, ∀ p r, x.memo.get? p r ≠ none →
      r < g.rules.size ∧ p ≤ input.length := by
  let L := derivedReading hg .sights input
    (fun log => ∀ x ∈ log, ∀ p r, x.memo.get? p r ≠ none → r < g.rules.size ∧ p ≤ input.length)
    fun hkept x hx => by
      rcases List.mem_cons.1 hx with rfl | hx
      · intro p r hsome
        obtain ⟨e, he⟩ := Option.ne_none_iff_exists'.1 hsome
        rw [← Subject.length_ofInput]
        exact hkept.inRange he
      · exact hkept.log x hx
  have hempty : L.Log [] := List.forall_mem_nil _
  exact (L.apply_nil_meets hg rfl d (.here 0) hempty ⟨hstart, Nat.zero_le _⟩).session
    (fun _ _ h => h.2)
    fun _ h => h.2

theorem enters_traceEntries (log : List Sight) :
    ((log.filterMap (Sight.traceEntry? g)).filter fun e => e.action = .enter).map
        (fun e => (e.rule, e.position)) =
      (log.filterMap Sight.entered?).map fun c => (g.ruleName c.rule, c.position) := by
  induction log with
  | nil => rfl
  | cons x log ih =>
      obtain ⟨active, memo, event⟩ := x
      cases event with
      | tries | tried | atom => exact ih
      | rule r p action =>
          cases action with
          | enter => exact congrArg (List.cons _) ih
          | replayed | reentered | grow | matched | failed => exact ih

variable (hg : g.WellFormed) (hstart : start < g.rules.size)
  (hgrowth : ∀ d, Growthless (attempt g input .sights [] start d).2.log)

include hg hstart hgrowth in
/-- The opening entries of a trace are for different calls. -/
theorem exists_attempt_enters (d : Nat) :
    ∃ calls : List Call, calls.Nodup ∧
      (∀ c ∈ calls, c.rule < g.rules.size ∧ c.position ≤ input.length) ∧
      ((attempt g input (.tracer g) [] start d).2.log.filter fun e => e.action = .enter).map
          (fun e => (e.rule, e.position)) = calls.map fun c => (g.ruleName c.rule, c.position) := by
  obtain ⟨seen, hseen, htrace⟩ := @exists_attempt_trace_eq g input start d
  have hs := attempt_remembers hg hstart hgrowth d
  refine ⟨seen.filterMap Sight.entered?, hs.nodup.sublist (hseen.sublist.filterMap _),
    fun c hc => ?_, ?_⟩
  · obtain ⟨x, hx, hentered⟩ := List.mem_filterMap.1 hc
    exact attempt_inRange hg hstart d x (hseen.subset hx) c.position c.rule
      (hs.entry x (hseen.subset hx) c.rule c.position (Sight.event_of_entered? hentered))
  · rw [htrace, enters_traceEntries]

include hg hstart hgrowth in
/-- Whoever is watching and whatever the limit, the table misses each call once at most. -/
theorem attempt_misses_le (hnames : g.Named) {ω : Type} (observer : Observer ω)
    (log : ω) (d : Nat) :
    (attempt g input observer log start d).2.memo.misses ≤ g.rules.size * (input.length + 1) := by
  -- Without the limit the misses are the opening entries of a trace.
  obtain ⟨d', hperforms, hgoes⟩ := exists_performs_attempt hg hstart observer log d
  obtain ⟨houtcome, hmemo, -⟩ := attempt_watched (.tracer g) [] hperforms.error?
  obtain ⟨-, new, hwrites, -⟩ := (attempt_logged hg hnames hstart d').exists_of_error?
    (houtcome ▸ hperforms.error?)
  obtain ⟨calls, hnodup, hrange, henters⟩ := exists_attempt_enters hg hstart hgrowth d'
  calc (attempt g input observer log start d).2.memo.misses
      ≤ (attempt g input observer log start d').2.memo.misses := hgoes.misses_le
    _ = (attempt g input (.tracer g) [] start d').2.memo.misses := by rw [hmemo]
    _ = ((attempt g input (.tracer g) [] start d').2.log.filter fun e =>
      e.action = .enter).length := by
        rw [hwrites.misses, hwrites.log, List.append_nil, List.filter_reverse, List.length_reverse,
          ← List.countP_eq_length_filter]
        exact Nat.zero_add _
    _ = calls.length := by simpa using congrArg List.length henters
    _ ≤ g.rules.size * (input.length + 1) := length_calls_le hnodup hrange

end Attempts

namespace Parser

variable {parser : Parser} {input : Input} {start : RuleId}

/-- Without left recursion parsing is packrat. A rule is entered at a position at most once and
no seed grows, so that no body is evaluated twice at a position. No entry is dropped from the
memo table, or gets another result once it is final. And the table misses no more often than
there are rules and positions. -/
theorem run_packrat {atoms : Array Atom} {rules : Array Rule} {root : RuleId}
    (hg : Grammar.ofParts atoms rules root = .ok parser.grammar)
    (hwarnings : ∀ w ∈ parser.grammar.warnings, w.finding ≠ .leftRecursion)
    (hrepetition : ∀ (id a : AtomId) (min : Nat),
      parser.grammar.atoms[id]? = some (.repetition a min (some 0)) → min = 0)
    (hstart : start < parser.grammar.rules.size) :
    (((parser.run (.tracer parser.grammar) [] start input).2.1.filter fun e =>
      e.action = .enter).map
        fun e => (e.rule, e.position)).Nodup ∧
      (∀ e ∈ (parser.run (.tracer parser.grammar) [] start input).2.1, ∀ stop,
        e.action ≠ .grow stop) ∧
      (parser.run .sights [] start input).2.1.Pairwise
        (fun later earlier => earlier.memo.Keeps later.memo) ∧
      (∀ x ∈ (parser.run .sights [] start input).2.1,
        x.memo.Keeps (parser.run .sights [] start input).2.2.memo) ∧
      (refusal parser.grammar parser.config input = none →
        ∀ {ω : Type} (observer : Observer ω) (log : ω),
          (parser.run observer log start input).2.2.memo.misses ≤
            parser.grammar.rules.size * (input.length + 1)) := by
  obtain ⟨hassemble, -⟩ := Grammar.assemble_of_ofParts hg
  have hwf := Grammar.assemble_wellFormed hassemble
  have hnames : parser.grammar.Named := fun _ _ => Grammar.ruleName_inj hassemble
  have hgrowth : ∀ d, Growthless (attempt parser.grammar input .sights [] start d).2.log := by
    intro d x hx
    by_contra hgrowth
    rw [Bool.not_eq_false] at hgrowth
    obtain ⟨r, p, stop, hevent⟩ := Event.exists_of_isGrowth hgrowth
    have hcovered := attempt_covered hwf (fun _ hatom => hrepetition _ _ _ hatom) hstart x hx
    cases (hcovered.grown r p stop hevent).symm.trans (isLeftRecursive_eq_false hwarnings r)
  cases hrefusal : refusal parser.grammar parser.config input with
  | some e =>
      simp only [run_refused hrefusal]
      exact ⟨.nil, List.forall_mem_nil _, .nil, List.forall_mem_nil _, fun h => by contradiction⟩
  | none =>
      simp only [run_eq_attempt hrefusal]
      have hs := attempt_remembers hwf hstart hgrowth parser.config.maxDepth
      obtain ⟨calls, hnodup, hrange, henters⟩ :=
        exists_attempt_enters hwf hstart hgrowth parser.config.maxDepth
      refine ⟨?_, fun e he stop haction => ?_, hs.since.imp Sight.Follows.keeps, hs.now,
        fun _ _ observer log => attempt_misses_le hwf hstart hgrowth hnames observer log _⟩
      · rw [henters]
        refine hnodup.map_on fun c hc c' hc' hsame => ?_
        obtain ⟨hname, hposition⟩ := Prod.mk.inj hsame
        rw [Call.mk.injEq]
        exact ⟨hnames _ _ (hrange c hc).1 (hrange c' hc').1 hname, hposition⟩
      · obtain ⟨x, hx, r, p, hevent, -⟩ := attempt_traced e he
        rw [haction] at hevent
        have hgrown := hgrowth _ x hx
        rw [hevent] at hgrown
        contradiction

/-- In `b` the rule `r` of `peeking` is asked for twice at the start, and answered from the
table then. The table is missed at most four times, for two rules and two positions. -/
theorem run_packrat_peeking :
    (∃ e ∈ ((ofGrammar peeking {}).run (.tracer peeking) [] 0 (.text "b")).2.1,
      e.action = .replayed) ∧
      ((((ofGrammar peeking {}).run (.tracer peeking) [] 0 (.text "b")).2.1.filter
        fun e => e.action = .enter).map fun e => (e.rule, e.position)).Nodup ∧
      ((ofGrammar peeking {}).run .silent () 0 (.text "b")).2.2.memo.misses ≤ 4 := by
  obtain ⟨hnodup, -, -, -, hmisses⟩ := @run_packrat (ofGrammar peeking {}) (.text "b") 0 _ _ _
    ofParts_peeking (by decide +kernel) (by
      intro id a min hatom
      simpa [ofGrammar, peeking] using Array.mem_of_getElem? hatom) (by decide)
  exact ⟨by decide +kernel, hnodup, hmisses rfl .silent ()⟩

end Parser

end Seedling
