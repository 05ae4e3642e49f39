import Seedling.Proofs.Parse.Depth

/-!
Evaluation as a course of changes to its session. A course says what may happen at each turn,
and how that adds up over the rounds of a rule; evaluation without limits then takes it from
start to end.

Two courses hold for every grammar, also with left recursion. While something is evaluated, an
entry that was in the memo table before is at most marked: what a growing seed drops are entries
that were made since its rule was entered. And whatever is made final is settled.
-/

namespace Seedling

open Unlimited

/-! ### Evaluation as a course of changes -/

namespace Unlimited

variable {ω : Type} {task : Task ω} {k : Kind} {active : List Call} {job : Job k} {s : Session ω}
  {result : Outcome k.Match × Session ω}

theorem error?_proceed {α β : Type} {ok : α → Session ω → Outcome β × Session ω}
    {no : Failure → Session ω → Outcome β × Session ω} {result : Outcome α × Session ω}
    (h : result.1.error? = none) (hok : ∀ a s, (ok a s).1.error? = none)
    (hno : ∀ f s, (no f s).1.error? = none) : (proceed ok no result).1.error? = none := by
  obtain ⟨a | f | e, s⟩ := result
  · exact hok a s
  · exact hno f s
  · contradiction

theorem error?_onMatch {α β : Type} (f : α → β) {result : Outcome α × Session ω}
    (h : result.1.error? = none) : (onMatch f result).1.error? = none := by
  rw [onMatch_eq]
  exact error?_proceed h (fun _ _ => rfl) fun _ _ => rfl

theorem RoundsTo.error?_done {r : RuleId} {p : Nat} {e : Entry}
    {attempt : Outcome Found × Session ω} {outcome : Outcome Found} {s' : Session ω}
    (h : RoundsTo task active r p e attempt (.done outcome s'))
    (hattempt : attempt.1.error? = none) : outcome.error? = none := by
  cases h with
  | abort => contradiction
  | passed | failed | outgrown | matched => rfl

@[simp] theorem error?_seedOr (f : Failure) (e : Entry) : (Task.seedOr f e).error? = none := by
  rw [Task.seedOr]
  cases e.found? <;> rfl

theorem Performs.error? (h : Performs task active job s result) : result.1.error? = none := by
  induction h with
  | atom _ _ ih =>
      rw [noteAtom_eq]
      exact error?_proceed ih (fun _ _ => rfl) fun _ _ => rfl
  | rule _ ih | discard _ ih | splice _ ih | body _ _ ih => exact error?_onMatch _ ih
  | literal | pattern | token =>
      rw [Task.terminal]
      split <;> rfl
  | sequence _ ih | choice _ ih | repetition _ ih => exact ih
  | @lookahead _ _ _ positive _ _ _ _ _ ih =>
      rw [lookahead_eq]
      refine error?_proceed ih (fun _ _ => ?_) fun _ _ => ?_ <;> cases positive <;> rfl
  | done | broken | exhausted | taken | full | empty | enough | tooFew => rfl
  | item _ _ _ ih | passed _ _ _ ih | more _ _ _ _ _ ih | grown _ _ _ _ _ ih | entered _ _ ih =>
      exact ih
  | settled _ hentry hsettle ihx => exact (Task.roundsTo_of_settle hentry hsettle).error?_done ihx
  | replayed =>
      rw [Task.replay]
      split
      · exact error?_seedOr _ _
      · rfl
      · exact error?_seedOr _ _

/-- What evaluation does to sessions, by what it does at each turn: `Le` relates the session
before something is evaluated to the one after it, and `Grows` does so for the rounds of a rule
that has been entered. -/
structure Course (task : Task ω) where
  Le : List Call → Session ω → Session ω → Prop
  Grows : List Call → RuleId → Nat → Session ω → Session ω → Prop
  refl : ∀ {active s}, Le active s s
  trans : ∀ {active s s' s''}, Le active s s' → Le active s' s'' → Le active s s''
  told : ∀ {active s event}, (∀ r p action, event ≠ .rule r p action) →
    Le active s (s.note task.observer active event)
  furthest : ∀ {active s} f, Le active s { s with furthest := f }
  lookup : ∀ {active s} r p, Le active s { s with memo := (s.memo.lookup p r).2 }
  replayed : ∀ {active r p s e}, s.memo.get? p r = some e → e.isFinal = true →
    Le active s (s.note task.observer active (.rule r p .replayed))
  reentered : ∀ {active r p s e}, s.memo.get? p r = some e → e.isFinal = false → ⟨r, p⟩ ∈ active →
    Le active s ((s.reenter active r p).note task.observer active (.rule r p .reentered))
  entered : ∀ {active r p s s'}, s.memo.get? p r = none →
    Grows active r p (task.entered active r p s) s' → Le active s s'
  settled : ∀ {active r p s attempt s₁ e entry action},
    Performs task (⟨r, p⟩ :: active) (.body r p) s (attempt, s₁) → Le (⟨r, p⟩ :: active) s s₁ →
    s₁.memo.get? p r = some e → entry.Settled →
      (entry.found? = none → attempt.result? = some none) →
    action = .failed ∨ (∃ stop, action = .matched stop) →
    Grows active r p s (task.put active r p entry action s₁)
  grown : ∀ {active r p s attempt s₁ e found s' s''},
    Performs task (⟨r, p⟩ :: active) (.body r p) s (attempt, s₁) → Le (⟨r, p⟩ :: active) s s₁ →
    s₁.memo.get? p r = some e → task.plant active r p e found s₁ = .again s' →
      Grows active r p s' s'' →
    Grows active r p s s''

namespace Course

def Relates (c : Course task) (active : List Call) :
    {k : Kind} → Job k → Session ω → Session ω → Prop
  | _, .growth r p, s, s' => c.Grows active r p s s'
  | _, _, s, s' => c.Le active s s'

variable (c : Course task)

theorem le_proceed {α β : Type} {ok : α → Session ω → Outcome β × Session ω}
    {no : Failure → Session ω → Outcome β × Session ω} {result : Outcome α × Session ω}
    (h : c.Le active s result.2) (hok : ∀ a s, c.Le active s (ok a s).2)
    (hno : ∀ f s, c.Le active s (no f s).2) : c.Le active s (proceed ok no result).2 := by
  obtain ⟨a | f | e, s'⟩ := result
  · exact c.trans h (hok a s')
  · exact c.trans h (hno f s')
  · exact h

theorem le_onMatch {α β : Type} (f : α → β) {result : Outcome α × Session ω}
    (h : c.Le active s result.2) : c.Le active s (onMatch f result).2 := by
  rw [onMatch_eq]
  exact c.le_proceed h (fun _ _ => c.refl) fun _ _ => c.refl

theorem le_noteAtom {id : AtomId} {p : Nat} {result : Outcome Matched × Session ω}
    (h : c.Le active s result.2) : c.Le active s (task.noteAtom active id p result).2 := by
  rw [noteAtom_eq]
  exact c.le_proceed h (fun _ _ => c.told (by simp)) fun _ _ => c.told (by simp)

theorem le_terminal (id : AtomId) (p : Nat) (out : Array ParseTree) :
    c.Le active s (task.terminal id p out s).2 := by
  rw [Task.terminal]
  split
  · exact c.refl
  · exact c.furthest _

theorem le_lookahead {result : Outcome Matched × Session ω} (a : AtomId) (positive : Bool) (p : Nat)
    (out : Array ParseTree) (h : c.Le active s result.2) :
    c.Le active s (Task.lookahead (fun _ _ _ _ => result) a positive p out s).2 := by
  rw [lookahead_eq]
  refine c.le_proceed h (fun _ _ => c.furthest _) fun f after => ?_
  cases positive
  · exact c.furthest _
  · exact c.refl

theorem le_replay {r : RuleId} {p : Nat} {e : Entry} (he : s.memo.get? p r = some e)
    (hanswer : canAnswer active r p e = true) : c.Le active s (task.replay active r p e s).2 := by
  rw [canAnswer] at hanswer
  cases hstate : e.state with
  | matched | failed =>
      simp only [Task.replay, hstate]
      exact c.replayed he (by simp [Entry.isFinal, hstate])
  | inProgress | reentered | seeded =>
      simp only [Task.replay, hstate] at hanswer ⊢
      exact c.reentered he (by simp [Entry.isFinal, hstate]) (of_decide_eq_true hanswer)

theorem grows_settled {r : RuleId} {p : Nat} {attempt : Outcome Found × Session ω} {e : Entry}
    {outcome : Outcome Found} {s' : Session ω}
    (hbody : Performs task (⟨r, p⟩ :: active) (.body r p) s attempt)
    (hle : c.Le (⟨r, p⟩ :: active) s attempt.2) (he : attempt.2.memo.get? p r = some e)
    (hround : RoundsTo task active r p e attempt (.done outcome s')) : c.Grows active r p s s' := by
  have haccept : ∀ found : Found, (e.store .matched found).Settled := fun found => .inl ⟨rfl, rfl⟩
  cases hround with
  | abort => cases hbody.error?
  | passed | outgrown | matched =>
      exact c.settled hbody hle he (haccept _) (by simp [Entry.store, Entry.found?]) (.inr ⟨_, rfl⟩)
  | failed hnone => exact c.settled hbody hle he (.inr ⟨rfl, hnone, rfl⟩) (fun _ => rfl) (.inl rfl)

end Course

theorem Performs.course (h : Performs task active job s result) (c : Course task) :
    c.Relates active job s result.2 := by
  induction h with
  | atom _ _ ih => exact c.le_noteAtom ih
  | rule _ ih | discard _ ih | splice _ ih | body _ _ ih => exact c.le_onMatch _ ih
  | literal | pattern | token => exact c.le_terminal _ _ _
  | sequence _ ih | choice _ ih | repetition _ ih | broken _ ih => exact ih
  | lookahead _ ih => exact c.le_lookahead _ _ _ _ ih
  | done | exhausted | full => exact c.refl
  | item _ _ ihx ih | more _ _ _ _ ihx ih => exact c.trans ihx ih
  | taken _ ihx => exact c.trans (c.trans (c.told (by simp)) ihx) (c.told (by simp))
  | passed _ _ ihx ih =>
      exact c.trans (c.trans (c.trans (c.told (by simp)) ihx) (c.told (by simp))) ih
  | empty _ _ _ ihx | enough _ _ _ ihx | tooFew _ _ _ ihx => exact ihx
  | settled hx hentry hsettle ihx =>
      exact c.grows_settled hx ihx hentry (Task.roundsTo_of_settle hentry hsettle)
  | grown hx hentry hsettle _ ihx ih =>
      cases Task.roundsTo_of_settle hentry hsettle with
      | grown => exact c.grown hx ihx hentry rfl ih
  | replayed hentry hanswer =>
      refine c.trans (c.lookup _ _) (c.le_replay ?_ hanswer)
      rwa [MemoTable.get?_lookup]
  | entered hnone _ ih =>
      refine c.trans (c.lookup _ _) (c.entered ?_ ih)
      rwa [MemoTable.get?_lookup]

/-- Whatever the limit, a rule at the start of the input comes to a session on the way to one
that it comes to without limits. -/
theorem exists_performs_attempt {g : Grammar} {input : Input} {start : RuleId} (hg : g.WellFormed)
    (hstart : start < g.rules.size) (observer : Observer ω) (log : ω) (d : Nat) :
    ∃ d', Performs ⟨g, .ofInput input, observer⟩ [] (.application start 0) ⟨.empty, .here 0, log⟩
        (attempt g input observer log start d') ∧
      Task.Goes ⟨g, .ofInput input, observer⟩ (attempt g input observer log start d).2
        (attempt g input observer log start d').2 := by
  let roomy := g.rules.size * (input.length + 1) + 1
  have hnone : (attempt g input observer log start (max d roomy)).1.error? = none := by
    have hroomy : (attempt g input observer log start roomy).1.error? = none :=
      error?_attempt_roomy hg hstart
    rw [attempt_eq_of_le hroomy (Nat.le_max_right d roomy)]
    exact hroomy
  have hagrees := Parser.apply_nil_agrees hg hstart
    (Nat.zero_le input.length) observer (max d roomy)
    (.here 0) log
  refine ⟨max d roomy, ?_, ?_⟩
  · rw [attempt] at hnone ⊢
    rcases hresult : Task.apply ⟨g, .ofInput input, observer⟩ (max d roomy) [] start 0
      ⟨.empty, .here 0, log⟩ with ⟨_ | _ | _, s⟩ <;> rw [hresult] at hagrees hnone
    · exact hagrees
    · exact hagrees
    · contradiction
  · rcases attempt_cases (Nat.le_max_left d roomy) with ⟨-, heq⟩ | ⟨-, hgoes⟩
    · rw [heq]
    · exact hgoes

end Unlimited

/-! ### Entries last -/

namespace MemoTable

/-- The rules that may come to depend on `r` at `p` inside the applications `active`: those that
have no entry there, and those that are applied inside of it. -/
def Newcomer (m : MemoTable) (active : List Call) (p : Nat) (r d : RuleId) : Prop :=
  m.get? p d = none ∨ ⟨d, p⟩ ∈ active.takeWhile (· ≠ ⟨r, p⟩)

/-- Every entry of a table is in the other one, too, at most marked. -/
def Lasts (active : List Call) (m m' : MemoTable) : Prop :=
  ∀ p r e, m.get? p r = some e → ∃ e', m'.get? p r = some e' ∧
    e.Marked (m.Newcomer active p r) True e'

variable {active : List Call} {m m' m'' : MemoTable} {p : Nat} {r : RuleId}

theorem Lasts.get?_eq_none (h : m.Lasts active m') (hnone : m'.get? p r = none) :
    m.get? p r = none := by
  cases he : m.get? p r with
  | none => rfl
  | some e =>
      obtain ⟨e', he', -⟩ := h p r e he
      cases hnone.symm.trans he'

theorem Lasts.of_marked {new : Nat → RuleId → RuleId → Prop} {again : Nat → RuleId → Prop}
    (h : m.Marked new again m') (hnew : ∀ p r d, new p r d → m.Newcomer active p r d) :
    m.Lasts active m' := by
  intro p r e he
  obtain ⟨e', he', hmarked⟩ := (h p r).2 e he
  exact ⟨e', he', hmarked.imp (hnew p r) fun _ => trivial⟩

theorem Lasts.of_get? (h : ∀ p r, m'.get? p r = m.get? p r) : m.Lasts active m' :=
  fun p r e he => ⟨e, (h p r).trans he, .refl e⟩

/-- What was evaluated inside of a rule that has no entry in the first table is inside of all
that have one. -/
theorem Lasts.trans_cons (h : m.Lasts active m') (h' : m'.Lasts (⟨r, p⟩ :: active) m'')
    (hnone : m.get? p r = none) : m.Lasts active m'' := by
  intro p' r' e he
  obtain ⟨e', he', hmarked⟩ := h p' r' e he
  obtain ⟨e'', he'', hmarked'⟩ := h' p' r' e' he'
  refine ⟨e'', he'', hmarked.trans (hmarked'.imp (fun d hd => ?_) id)⟩
  have hne : (⟨r, p⟩ : Call) ≠ ⟨r', p'⟩ := by
    rintro heq
    cases heq
    cases hnone.symm.trans he
  rcases hd with hd | hd
  · exact .inl (h.get?_eq_none hd)
  · rw [List.takeWhile_cons_of_pos (by simpa only [decide_eq_true_eq] using hne),
      List.mem_cons] at hd
    rcases hd with hd | hd
    · cases hd
      exact .inl hnone
    · exact .inr hd

theorem Lasts.trans (h : m.Lasts active m') (h' : m'.Lasts active m'') : m.Lasts active m'' := by
  intro p r e he
  obtain ⟨e', he', hmarked⟩ := h p r e he
  obtain ⟨e'', he'', hmarked'⟩ := h' p r e' he'
  exact ⟨e'', he'', hmarked.trans (hmarked'.imp (fun d => Or.imp_left h.get?_eq_none) id)⟩

theorem Lasts.insert (h : m.Lasts active m') (hnone : m.get? p r = none) (entry : Entry) :
    m.Lasts active (m'.insert p r entry) := by
  intro p' r' e he
  rw [get?_insert_of_ne]
  · exact h p' r' e he
  · rintro ⟨rfl, rfl⟩
    cases hnone.symm.trans he

theorem Lasts.removeAll (h : m.Lasts active m') {rules : List RuleId}
    (hnone : ∀ d ∈ rules, m.get? p d = none) :
    m.Lasts active (rules.foldl (fun memo d => memo.remove p d) m') := by
  intro p' r' e he
  rw [get?_removeAll, if_neg]
  · exact h p' r' e he
  · rintro ⟨rfl, hr'⟩
    cases (hnone r' hr').symm.trans he

/-- A table since a rule was entered: what is dropped when the rule grows was made in the
meantime. -/
structure Opens (m : MemoTable) (active : List Call) (r : RuleId) (p : Nat)
    (m' : MemoTable) : Prop where
  lasts : m.Lasts active m'
  absent : m.get? p r = none
  entry : ∃ e, m'.get? p r = some e ∧ ∀ d ∈ e.dependents, m.get? p d = none

/-- The body of a rule is evaluated inside of it, so nothing that was there comes to depend on
the rule. -/
theorem Opens.trans (h : m.Opens active r p m') (h' : m'.Lasts (⟨r, p⟩ :: active) m'') :
    m.Opens active r p m'' where
  lasts := h.lasts.trans_cons h' h.absent
  absent := h.absent
  entry := by
    obtain ⟨e, he, hdependents⟩ := h.entry
    obtain ⟨e', he', hmarked⟩ := h' p r e he
    refine ⟨e', he', fun d hd => ?_⟩
    rcases hmarked.dependents d hd with hd | hd | hd
    · exact hdependents d hd
    · exact h.lasts.get?_eq_none hd
    · rw [List.takeWhile_cons_of_neg (by simp)] at hd
      contradiction

theorem Opens.dependents (h : m.Opens active r p m') {e : Entry} (he : m'.get? p r = some e) :
    ∀ d ∈ e.dependents, m.get? p d = none := by
  obtain ⟨e', he', hdependents⟩ := h.entry
  cases he'.symm.trans he
  exact hdependents

end MemoTable

namespace Unlimited

variable {ω : Type}

def lasting (task : Task ω) : Course task where
  Le active s s' := s.memo.Lasts active s'.memo
  Grows active r p s s' := ∀ m : MemoTable, m.Opens active r p s.memo → m.Lasts active s'.memo
  refl := .of_get? fun _ _ => rfl
  trans h h' := h.trans h'
  told _ := .of_get? fun _ _ => rfl
  furthest _ := .of_get? fun _ _ => rfl
  lookup r p := .of_get? fun p' r' => MemoTable.get?_lookup _ p r p' r'
  replayed _ _ := .of_get? fun _ _ => rfl
  reentered he hopen hactive := .of_marked (marked_reenter hactive he hopen) (by
    rintro _ _ d ⟨rfl, rfl, hd⟩
    exact .inr hd)
  entered {active r p s _} hnone hgrows := by
    have hlasts : s.memo.Lasts active (s.enlist active r p).memo := by
      refine .of_marked (marked_enlist s active r p) ?_
      rintro _ _ d ⟨rfl, rfl⟩
      exact .inl hnone
    exact hgrows s.memo ⟨hlasts.insert hnone _, hnone, .inProgress,
      MemoTable.get?_insert_self _ p r _, List.forall_mem_nil _⟩
  settled _ hle _ _ _ _ m hopens := (hopens.trans hle).lasts.insert hopens.absent _
  grown _ hle he hplant hgrows m hopens := by
    cases hplant
    have hopens₁ := hopens.trans hle
    have hdependents := hopens₁.dependents he
    have hdropped := hopens₁.lasts.removeAll hdependents
    exact hgrows m ⟨(hdropped.insert hopens.absent _).insert hopens.absent _, hopens.absent, _,
      MemoTable.get?_insert_self _ _ _ _, hdependents⟩

theorem Performs.lasts {task : Task ω} {active : List Call} {job : Job .piece} {s : Session ω}
    {result : Outcome Matched × Session ω} (h : Performs task active job s result) :
    s.memo.Lasts active result.2.memo := by
  have hcourse := h.course (lasting task)
  cases job <;> exact hcourse

end Unlimited

/-! ### Final entries are settled -/

/-- Every final entry of a table is settled. -/
def MemoTable.Coherent (m : MemoTable) : Prop :=
  ∀ p r e, m.get? p r = some e → e.isFinal = true → e.Settled

namespace MemoTable.Coherent

variable {m m' : MemoTable} {p : Nat} {r : RuleId}

theorem marked {new : Nat → RuleId → RuleId → Prop} {again : Nat → RuleId → Prop} (h : m.Coherent)
    (hmarked : m.Marked new again m') : m'.Coherent := by
  intro p r e' he' hfinal
  obtain ⟨e, he, hmark⟩ := hmarked.exists_of_get? he'
  have hfinal' : e.isFinal = true := hmark.final.symm.trans hfinal
  rw [Entry.Settled, hmark.state hfinal', hmark.found, hmark.failure]
  exact h p r e he hfinal'

theorem insert (h : m.Coherent) {entry : Entry} (hentry : entry.isFinal = false ∨ entry.Settled) :
    (m.insert p r entry).Coherent := by
  intro p' r' e he hfinal
  rcases eq_or_of_get?_insert he with ⟨-, -, rfl⟩ | ⟨-, he⟩
  · exact hentry.resolve_left (by simp [hfinal])
  · exact h p' r' e he hfinal

theorem removeAll (h : m.Coherent) (rules : List RuleId) :
    (rules.foldl (fun memo d => memo.remove p d) m).Coherent := by
  intro p' r' e he
  rw [get?_removeAll] at he
  split at he
  · contradiction
  · exact h p' r' e he

theorem lookup (h : m.Coherent) : (m.lookup p r).2.Coherent :=
  fun p' r' e he => h p' r' e ((get?_lookup m p r p' r').symm.trans he)

end MemoTable.Coherent

theorem MemoTable.coherent_empty : empty.Coherent := by
  intro p r e he
  rw [get?_empty] at he
  contradiction

namespace Unlimited

variable {ω : Type} {task : Task ω} {active : List Call} {s : Session ω}

theorem coherent_entered (task : Task ω) (active : List Call) (r : RuleId) (p : Nat)
    (hs : s.memo.Coherent) : (task.entered active r p s).memo.Coherent :=
  (hs.marked (marked_enlist s active r p)).insert (.inl rfl)

theorem coherent_plant {r : RuleId} {p : Nat} {e : Entry} {found : Found} {s' : Session ω}
    (hs : s.memo.Coherent) (hplant : task.plant active r p e found s = .again s') :
    s'.memo.Coherent := by
  cases hplant
  exact ((hs.removeAll _).insert (.inl rfl)).insert (.inl rfl)

def cohering (task : Task ω) : Course task where
  Le _ s s' := s.memo.Coherent → s'.memo.Coherent
  Grows _ _ _ s s' := s.memo.Coherent → s'.memo.Coherent
  refl h := h
  trans h h' hs := h' (h hs)
  told _ hs := hs
  furthest _ hs := hs
  lookup _ _ hs := hs.lookup
  replayed _ _ hs := hs
  reentered he hopen hactive hs := hs.marked (marked_reenter hactive he hopen)
  entered _ hgrows hs := hgrows (coherent_entered _ _ _ _ hs)
  settled _ hle _ hentry _ _ hs := (hle hs).insert (.inr hentry)
  grown _ hle _ hplant hgrows hs := hgrows (coherent_plant (hle hs) hplant)

theorem Performs.coherent {k : Kind} {job : Job k} {result : Outcome k.Match × Session ω}
    (h : Performs task active job s result) (hs : s.memo.Coherent) : result.2.memo.Coherent := by
  have hcourse := h.course (cohering task)
  cases job <;> exact hcourse hs

end Unlimited

end Seedling
