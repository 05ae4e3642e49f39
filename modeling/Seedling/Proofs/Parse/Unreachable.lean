import Seedling.Proofs.Parse.Standing
import Seedling.Proofs.Parse.Sure

/-!
Alternatives behind one that always succeeds. A rule that is sure to succeed is never made final
with a failure by itself, but a rule that is met again while it is in progress fails as long as
it has no seed. So what stands behind such an alternative is tried only after a rule that the
check has looked into was met again; without left recursion it never is.
-/

namespace Seedling

open Unlimited

/-! ### What the table answers -/

section Tables

variable {S : RuleId → Prop} {m m' : MemoTable} {p : Nat} {r : RuleId}

def MemoTable.Assures (S : RuleId → Prop) (m : MemoTable) : Prop :=
  ∀ r p, S r → ¬ m.answers r p none

namespace MemoTable.Assures

theorem of_get? (h : m.Assures S) (hget : ∀ p r, m'.get? p r = m.get? p r) : m'.Assures S := by
  rintro r p hr ⟨e, he, hasked⟩
  exact h r p hr ⟨e, (hget p r).symm.trans he, hasked⟩

/-- Marks make a failure only of a rule that is met again and has no seed. -/
theorem marked (h : m.Assures S) {new : Nat → RuleId → RuleId → Prop} {again : Nat → RuleId → Prop}
    (hmarked : m.Marked new again m') (hagain : ∀ p r, again p r → S r → ¬ m'.answers r p none) :
    m'.Assures S := by
  intro r p hr hanswer
  obtain ⟨e', he', hasked, hnone⟩ := hanswer
  obtain ⟨e, he, hmark⟩ := hmarked.exists_of_get? he'
  have hfound : e.found? = none := hmark.found.symm.trans hnone
  refine h r p hr ⟨e, he, hasked.imp hmark.final.symm.trans fun hstate => ?_, hfound⟩
  have hgrowing : e'.isGrowing = true := by simp [Entry.isGrowing, hstate]
  rcases hmark.growing hgrowing with hgrowing | hmet
  · rw [Entry.found?, Option.map_eq_none_iff] at hfound
    simpa [Entry.isGrowing, Entry.hasSeed, hfound] using hgrowing
  · exact absurd ⟨e', he', hasked, hnone⟩ (hagain p r hmet hr)

theorem insert (h : m.Assures S) {entry : Entry}
    (hentry : S r → entry.isFinal = true ∨ entry.state = .reentered → entry.found? ≠ none) :
    (m.insert p r entry).Assures S := by
  rintro r' p' hr' ⟨e, he, hasked, hnone⟩
  rcases MemoTable.eq_or_of_get?_insert he with ⟨-, rfl, rfl⟩ | ⟨-, he⟩
  · exact hentry hr' hasked hnone
  · exact h r' p' hr' ⟨e, he, hasked, hnone⟩

theorem removeAll (h : m.Assures S) (rules : List RuleId) :
    (rules.foldl (fun memo d => memo.remove p d) m).Assures S := by
  rintro r' p' hr' ⟨e, he, hasked⟩
  rw [get?_removeAll] at he
  split at he
  · contradiction
  · exact h r' p' hr' ⟨e, he, hasked⟩

end MemoTable.Assures

/-- A rule of the set has been met again while it had no seed. -/
def Met (S : RuleId → Prop) (log : List Sight) : Prop :=
  ∃ x ∈ log, ∃ r p, S r ∧ x.event = .rule r p .reentered ∧ x.memo.answers r p none

theorem Met.cons {log : List Sight} (h : Met S log) (x : Sight) : Met S (x :: log) := by
  obtain ⟨y, hy, hmet⟩ := h
  exact ⟨y, List.mem_cons_of_mem x hy, hmet⟩

theorem Met.of_tries {log : List Sight} {x : Sight} {choice : AtomId} {index p : Nat}
    (h : Met S (x :: log)) (hevent : x.event = .tries choice index p) : Met S log := by
  obtain ⟨y, hy, r, q, hr, hmet, hanswer⟩ := h
  rcases List.mem_cons.1 hy with rfl | hy
  · cases hevent.symm.trans hmet
  · exact ⟨y, hy, r, q, hr, hmet, hanswer⟩

theorem Met.imp {S' : RuleId → Prop} {log : List Sight} (h : Met S log) (hS : ∀ r, S r → S' r) :
    Met S' log := by
  obtain ⟨x, hx, r, p, hr, hmet⟩ := h
  exact ⟨x, hx, r, p, hS r hr, hmet⟩

/-- Rules of the set fail only once one of them has been met again, whenever the table is looked
at. -/
structure Session.Assured (S : RuleId → Prop) (s : Session (List Sight)) : Prop where
  coherent : s.memo.Coherent
  now : Met S s.log ∨ s.memo.Assures S
  seen : ∀ x before, x :: before <:+ s.log → Met S (x :: before) ∨ x.memo.Assures S

namespace Session.Assured

variable {s : Session (List Sight)}

theorem table (hs : s.Assured S) (hcoherent : m.Coherent) (hm : s.memo.Assures S → m.Assures S) :
    Session.Assured S { s with memo := m } :=
  ⟨hcoherent, hs.now.imp_right hm, hs.seen⟩

theorem note (hs : s.Assured S) (active : List Call) (event : Event) {f : Failure}
    (hcoherent : m.Coherent)
    (hm : Met S (⟨active, m, event⟩ :: s.log) ∨ (s.memo.Assures S → m.Assures S)) :
    Session.Assured S ⟨m, f, ⟨active, m, event⟩ :: s.log⟩ := by
  have hnow : Met S (⟨active, m, event⟩ :: s.log) ∨ m.Assures S := by
    rcases hs.now with hmet | hassures
    · exact .inl (hmet.cons _)
    · exact hm.imp_right fun h => h hassures
  refine ⟨hcoherent, hnow, fun x before hx => ?_⟩
  rcases List.suffix_cons_iff.1 hx with heq | hx
  · cases heq
    exact hnow
  · exact hs.seen x before hx

end Session.Assured

end Tables

section Course

variable {g : Grammar} {subject : Subject} {looked : SortedSet RuleId}

/-- Evaluation lets rules that are relied on fail only once one of them has been met again. -/
def assuring (hg : g.Compiled) (hreads : g.Reads subject) (looked : SortedSet RuleId) :
    Course (⟨g, subject, .sights⟩ : Task (List Sight)) where
  Le _ s s' := s.Assured (g.Relied looked) → s'.Assured (g.Relied looked)
  Grows _ _ _ s s' := s.Assured (g.Relied looked) → s'.Assured (g.Relied looked)
  refl h := h
  trans h h' hs := h' (h hs)
  told _ hs := hs.note _ _ hs.coherent (.inr id)
  furthest _ hs := ⟨hs.coherent, hs.now, hs.seen⟩
  lookup r p hs := hs.table hs.coherent.lookup fun h => h.of_get? fun _ _ =>
    MemoTable.get?_lookup ..
  replayed _ _ hs := hs.note _ _ hs.coherent (.inr id)
  reentered {active r p s e} he hopen hactive hs := by
    have hmarked := marked_reenter hactive he hopen
    rw [Session.note, Session.log_reenter]
    refine hs.note _ _ (hs.coherent.marked hmarked) ?_
    by_cases hfails : g.Relied looked r ∧ (s.reenter active r p).memo.answers r p none
    · exact .inl ⟨_, List.mem_cons_self, r, p, hfails.1, rfl, hfails.2⟩
    · refine .inr fun h => h.marked hmarked ?_
      rintro _ _ ⟨rfl, rfl⟩ hr hanswer
      exact hfails ⟨hr, hanswer⟩
  entered {active r p s _} _ hgrows hs := by
    refine hgrows (hs.note _ _ (coherent_entered ⟨g, subject, .sights⟩ active r p hs.coherent)
      (.inr fun h => ?_))
    refine (h.marked (marked_enlist s active r p) fun _ _ hagain => hagain.elim).insert
      fun _ hasked => ?_
    simp [Entry.inProgress, Entry.isFinal] at hasked
  settled {active r p s attempt s₁ e entry action} hbody hle _ hentry hnone _ hs := by
    have hs₁ := hle hs
    refine hs₁.note _ _ (hs₁.coherent.insert (.inr hentry))
      (.inr fun h => h.insert fun hr _ hfound => ?_)
    -- If the body has failed, a rule has that it relies on.
    obtain ⟨o, hbody, hresult⟩ := hbody.body_means hs.coherent
    cases Option.some.inj (hresult.symm.trans (hnone hfound))
    obtain ⟨r', q, hr', hanswer⟩ := hr.2.exists_answer hg hreads hbody
    exact h r' q hr' hanswer
  grown {active r p s attempt s₁ e found s' s''} _ hle _ hplant hgrows hs := by
    cases hplant
    have hs₁ := hle hs
    have hseeded : ((e.dependents.foldl (fun memo d => memo.remove p d) s₁.memo).insert p r
        (e.store .seeded found)).Coherent := (hs₁.coherent.removeAll e.dependents).insert (.inl rfl)
    have hseen := hs₁.note (f := s₁.furthest) (⟨r, p⟩ :: active)
      (.rule r p (.grow found.stop)) hseeded
      (.inr fun h => (h.removeAll e.dependents).insert (by simp [Entry.store, Entry.found?]))
    exact hgrows (hseen.table (hseeded.insert (.inl rfl))
      fun h => h.insert (by simp [Entry.store, Entry.found?]))

theorem attempt_assured (hg : g.Compiled) {input : Input} (hreads : g.Reads (.ofInput input))
    (looked : SortedSet RuleId) {start : RuleId} (hstart : start < g.rules.size)
    (d : Nat) {x : Sight}
    {before : List Sight} (hx : x :: before <:+ (attempt g input .sights [] start d).2.log) :
    Met (g.Relied looked) (x :: before) ∨ x.memo.Assures (g.Relied looked) := by
  obtain ⟨d', hperforms, hgoes⟩ := exists_performs_attempt hg.toWellFormed hstart .sights [] d
  have hcourse := hperforms.course (assuring hg hreads looked)
  have hempty : Session.Assured (g.Relied looked) ⟨.empty, .here 0, []⟩ := by
    refine ⟨MemoTable.coherent_empty, .inr ?_, fun x before hx => ?_⟩
    · rintro r p - ⟨e, he, -⟩
      rw [MemoTable.get?_empty] at he
      contradiction
    · cases List.suffix_nil.1 hx
  exact (hcourse hempty).seen x before (hx.trans hgoes.suffix)

end Course

/-- An alternative behind one that always succeeds is tried only after a rule that was looked
into has been met again. -/
theorem attempt_tries {g : Grammar} {input : Input} {start : RuleId} (hg : g.Compiled)
    (hreads : g.Reads (.ofInput input)) (hstart : start < g.rules.size) (d : Nat)
    {choice a : AtomId} {alternatives : List AtomId} {k : Nat}
    (hchoice : g.atoms[choice]? = some (.choice alternatives)) (ha : alternatives[k]? = some a)
    (hsucceeds : g.leftEdge.alwaysSucceeds a = true) {x : Sight} {before : List Sight}
    {index p : Nat} (hx : x :: before <:+ (attempt g input .sights [] start d).2.log)
    (hevent : x.event = .tries choice index p) (hlt : k < index) :
    Met (· ∈ g.leftEdge.lookedInto a) before := by
  have hmeant := attempt_meant hg.toWellFormed hstart d x (hx.subset List.mem_cons_self)
  rw [Sight.Meant, hevent] at hmeant
  obtain ⟨alternatives', hchoice', hbefore⟩ := hmeant
  cases hchoice.symm.trans hchoice'
  have hmem : a ∈ alternatives.take index :=
    List.mem_of_getElem? ((List.getElem?_take_of_lt hlt).trans ha)
  obtain ⟨r, q, hr, hanswer⟩ :=
    (LeftEdge.sure_of_alwaysSucceeds hsucceeds).exists_answer hg hreads (hbefore a hmem)
  rcases attempt_assured hg hreads _ hstart d hx with hmet | hassures
  · exact (hmet.of_tries hevent).imp fun _ hr => hr.1
  · exact absurd hanswer (hassures r q hr)

namespace Parser

variable {parser : Parser} {input : Input} {start : RuleId}

theorem reads_of_refusal {atoms : Array Atom} {rules : Array Rule} {root : RuleId}
    (hg : Grammar.assemble atoms rules root = .ok parser.grammar)
    (hrefusal : refusal parser.grammar parser.config input = none) :
    parser.grammar.Reads (.ofInput input) := by
  intro id atom hatom hmode
  rw [refusal, Grammar.mode?_of_terminal hg hatom hmode] at hrefusal
  cases input with
  | text s => exact ⟨_, _, rfl⟩
  | tokens ts => contradiction

/-- A warning that alternatives are unreachable is about a choice of the rule that it names, and
of such a choice an alternative behind the one that always succeeds is tried only after a rule
that the check has looked into was met again while it had no seed. So none is tried if these
rules are not left recursive. -/
theorem unreachable_tried_after_reentry {atoms : Array Atom} {rules : Array Rule} {root : RuleId}
    (hg : Grammar.ofParts atoms rules root = .ok parser.grammar)
    (hstart : start < parser.grammar.rules.size) :
    (∀ w ∈ parser.grammar.warnings, ∀ k behind, w.finding = .unreachableAlternatives k behind →
      ∃ (r : RuleId) (rule : Rule) (choice : AtomId) (alternatives : List AtomId),
        parser.grammar.rules[r]? = some rule ∧ rule.name = w.rule ∧
          parser.grammar.BuiltOf rule.body choice ∧
          parser.grammar.atoms[choice]? = some (.choice alternatives) ∧
          .unreachableAlternatives k behind ∈ parser.grammar.leftEdge.unreachable alternatives) ∧
      ∀ (choice : AtomId) (alternatives : List AtomId) (k behind : Nat),
        parser.grammar.atoms[choice]? = some (.choice alternatives) →
        .unreachableAlternatives k behind ∈ parser.grammar.leftEdge.unreachable alternatives →
        ∃ a, alternatives[k]? = some a ∧
          (∀ x before index p, x :: before <:+ (parser.run .sights [] start input).2.1 →
            x.event = .tries choice index p → k < index →
              Met (· ∈ parser.grammar.leftEdge.lookedInto a) before) ∧
          ((∀ r ∈ parser.grammar.leftEdge.lookedInto a,
            parser.grammar.leftEdge.isLeftRecursive r = false) → (∀ (id a : AtomId) (min : Nat),
              parser.grammar.atoms[id]? = some (.repetition a min (some 0)) → min = 0) →
            ∀ x ∈ (parser.run .sights [] start input).2.1, ∀ index p,
              x.event = .tries choice index p → index ≤ k) := by
  obtain ⟨hassemble, -⟩ := Grammar.assemble_of_ofParts hg
  have hcompiled := Grammar.assemble_compiled hassemble
  refine ⟨fun w hw k behind => LeftEdge.exists_choice_of_warning hw, ?_⟩
  intro choice alternatives k behind hchoice hfinding
  obtain ⟨a, ha, hsucceeds⟩ := LeftEdge.exists_of_mem_unreachable hfinding
  refine ⟨a, ha, ?_⟩
  cases hrefusal : refusal parser.grammar parser.config input with
  | some e =>
      rw [run_refused hrefusal]
      refine ⟨fun x before index p hx => ?_, fun _ _ => List.forall_mem_nil _⟩
      cases List.suffix_nil.1 hx
  | none =>
      rw [run_eq_attempt hrefusal]
      have hafter : ∀ x before index p,
          x :: before <:+ (attempt parser.grammar input .sights [] start
            parser.config.maxDepth).2.log →
          x.event = .tries choice index p → k < index →
            Met (· ∈ parser.grammar.leftEdge.lookedInto a) before := fun x before index p =>
        attempt_tries hcompiled (reads_of_refusal hassemble hrefusal) hstart _ hchoice ha hsucceeds
      refine ⟨hafter, fun hrecursive hrepetition x hx index p hevent => Nat.not_lt.1 fun hlt => ?_⟩
      obtain ⟨later, before, hlog⟩ := List.append_of_mem hx
      have hsuffix : x :: before <:+ _ := ⟨later, hlog.symm⟩
      obtain ⟨y, hy, r, q, hr, hmet, -⟩ := hafter x before index p hsuffix hevent hlt
      have hcovered := attempt_covered hcompiled.toWellFormed
        (fun _ hatom => hrepetition _ _ _ hatom)
        hstart y (hsuffix.subset (List.mem_cons_of_mem x hy))
      cases (hcovered.reentered r q hmet).symm.trans (hrecursive r hr)

/-- `r: s 'c' | ''` with `s: r | 'b'`. -/
def circling : Grammar where
  atoms := #[.rule 1, .literal "c", .sequence [0, 1], .literal "", .choice [2, 3],
    .rule 0, .literal "b", .choice [5, 6]]
  rules := #[⟨"r", 4⟩, ⟨"s", 7⟩]
  root := 0
  matchers := Array.replicate 8 none

theorem ofParts_circling : Grammar.ofParts circling.atoms circling.rules 0 = .ok circling := by
  with_unfolding_all rfl

/-- The warning is given for `s` of `circling`, since `r` matches the empty text if nothing
else. But inside of itself `r` fails at first, so that in `bc` the second alternative of `s` is
tried and matches. -/
theorem tried_behind_circling :
    Grammar.ofParts circling.atoms circling.rules 0 = .ok circling ∧
      ⟨"s", .unreachableAlternatives 0 1⟩ ∈ circling.warnings ∧
      .unreachableAlternatives 0 1 ∈ circling.leftEdge.unreachable [5, 6] ∧
      (∃ x ∈ ((ofGrammar circling {}).run .sights [] 0 (.text "bc")).2.1,
        x.event = .tried 7 1 0 (some 1)) ∧
      ((ofGrammar circling {}).run .sights [] 0 (.text "bc")).1.toOption.isSome = true :=
  ⟨ofParts_circling, by decide +kernel, by decide +kernel, by decide +kernel, by decide +kernel⟩

/-- `s: 'a'? | 'b'`. -/
def skipping : Grammar where
  atoms := #[.literal "a", .repetition 0 0 (some 1), .literal "b", .choice [1, 2]]
  rules := #[⟨"s", 3⟩]
  root := 0
  matchers := Array.replicate 4 none

theorem ofParts_skipping : Grammar.ofParts skipping.atoms skipping.rules 0 = .ok skipping := by
  with_unfolding_all rfl

/-- In `bc` the rule `r` of `circling` is met again before the second alternative of `s` is
tried. In `b` the second alternative of `skipping`, which would match, is not tried. -/
theorem unreachable_tried_circling_skipping :
    (∃ x before, x :: before <:+ ((ofGrammar circling {}).run .sights [] 0 (.text "bc")).2.1 ∧
        x.event = .tries 7 1 0 ∧ Met (· ∈ circling.leftEdge.lookedInto 5) before) ∧
      ⟨"s", .unreachableAlternatives 0 1⟩ ∈ skipping.warnings ∧
      ∀ x ∈ ((ofGrammar skipping {}).run .sights [] 0 (.text "b")).2.1, ∀ p,
        x.event ≠ .tries 3 1 p := by
  refine ⟨?_, by decide +kernel, fun x hx p hevent => ?_⟩
  · have htries : ∃ x ∈ ((ofGrammar circling {}).run .sights [] 0 (.text "bc")).2.1,
        x.event = .tries 7 1 0 := by
      decide +kernel
    obtain ⟨x, hx, hevent⟩ := htries
    obtain ⟨later, before, hlog⟩ := List.append_of_mem hx
    have hfinding : .unreachableAlternatives 0 1 ∈ circling.leftEdge.unreachable [5, 6] := by
      decide +kernel
    obtain ⟨a, ha, hafter, -⟩ :=
      (@unreachable_tried_after_reentry (ofGrammar circling {}) (.text "bc") 0
        _ _ _ ofParts_circling (by decide)).2 7 [5, 6] 0 1 rfl hfinding
    cases ha
    exact ⟨x, before, ⟨later, hlog.symm⟩, hevent,
      hafter x before 1 0 ⟨later, hlog.symm⟩ hevent Nat.one_pos⟩
  · have hfinding : .unreachableAlternatives 0 1 ∈ skipping.leftEdge.unreachable [1, 2] := by
      decide +kernel
    obtain ⟨a, ha, -, hnever⟩ :=
      (@unreachable_tried_after_reentry (ofGrammar skipping {}) (.text "b") 0
        _ _ _ ofParts_skipping (by decide)).2 3 [1, 2] 0 1 rfl hfinding
    cases ha
    have hle := hnever (by decide +kernel) (by
      intro id a min hatom
      simpa [ofGrammar, skipping] using Array.mem_of_getElem? hatom) x hx 1 p hevent
    exact absurd hle (by decide)

end Parser

end Seedling
