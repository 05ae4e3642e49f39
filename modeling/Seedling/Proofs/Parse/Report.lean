import Mathlib.Data.List.TakeWhile
import Seedling.Proofs.Parse.Recursion
import Seedling.Proofs.Parse.Rerun

/-!
What the memo table does to error reports. Without left recursion a parse comes to the same
whether a rule that has been settled is answered from the table or run again. But a rule that is
run again reports once more what it expected, and an answer from the table does not. That makes
no difference unless the first report was forgotten since, which is what lookaheads do. So a
report never says more for the table, and it says the same where no rule is used both inside a
lookahead and where reports count.
-/

namespace Seedling

/-! ### What the table remembers -/

/-- What a settled entry answers. -/
inductive Entry.Records (e : Entry) : Outcome Found → Prop where
  | matched {found} : e.state = .matched → e.found? = some found → e.Records (.ok found)
  | failed {f} : e.state = .failed → e.failure = some f → e.Records (.backtrack f)

namespace Entry.Records

variable {e e' : Entry} {outcome : Outcome Found}

theorem isFinal (h : e.Records outcome) : e.isFinal = true := by
  cases h with
  | matched hstate => simp [Entry.isFinal, hstate]
  | failed hstate => simp [Entry.isFinal, hstate]

theorem of_marked {new : RuleId → Prop} {again : Prop} (hmarked : e.Marked new again e')
    (h : e'.Records outcome) : e.Records outcome := by
  have hstate := hmarked.state (hmarked.final ▸ h.isFinal)
  cases h with
  | matched h hfound => exact .matched (hstate ▸ h) (hmarked.found ▸ hfound)
  | failed h hfailure => exact .failed (hstate ▸ h) (hmarked.failure ▸ hfailure)

theorem replay_eq {ω : Type} (h : e.Records outcome) (task : Task ω)
    (active : List Call) (r : RuleId) (p : Nat) (s : Session ω) : task.replay active r p e s =
      (outcome, s.note task.observer active (.rule r p .replayed)) := by
  cases h with
  | matched hstate hfound => rw [Task.replay, hstate, Task.seedOr, hfound]
  | failed hstate hfailure => rw [Task.replay, hstate, hfailure, Option.getD_some]

end Entry.Records

theorem MemoTable.get?_of_get?_removeAll {m : MemoTable} {p p' : Nat} {r : RuleId} {e : Entry}
    {rules : List RuleId}
    (h : (rules.foldl (fun memo other => memo.remove p' other) m).get? p r = some e) :
    m.get? p r = some e := by
  rw [MemoTable.get?_removeAll] at h
  split at h
  · contradiction
  · exact h

section Untouched

variable {ω : Type} {task : Task ω} {rules : RuleId → Prop} {s s' : Session ω}
  {r : RuleId} {p : Nat}
  {outcome : Outcome Found}

/-- What the table answers for rules that a step does not touch, it answered before. -/
theorem Step.records (h : Step task rules s s') (hr : ¬ rules r) {e' : Entry}
    (he' : s'.memo.get? p r = some e') (hrecords : e'.Records outcome) :
    ∃ e, s.memo.get? p r = some e ∧ e.Records outcome := by
  have hne : ∀ {r₀ p₀}, rules r₀ → ¬ (p₀ = p ∧ r₀ = r) := by
    rintro r₀ p₀ hr₀ ⟨-, rfl⟩
    exact hr hr₀
  cases h with
  | told | furthest | replayed => exact ⟨e', he', hrecords⟩
  | lookup =>
      rw [MemoTable.get?_lookup] at he'
      exact ⟨e', he', hrecords⟩
  | @reentered active r₀ p₀ _ hr₀ =>
      have hmemo : (s.reenter active r₀ p₀).memo.get? p r = s.memo.get? p r := by
        rw [Session.reenter]
        split <;> simp only [MemoTable.get?_update, if_neg (hne hr₀)]
      exact ⟨e', hmemo ▸ he', hrecords⟩
  | @entered r₀ p₀ active hr₀ =>
      rw [Task.entered, Session.note, MemoTable.get?_insert, if_neg (hne hr₀)] at he'
      obtain ⟨e, he, hmarked⟩ := (marked_enlist s active r₀ p₀).exists_of_get? he'
      exact ⟨e, he, hrecords.of_marked hmarked⟩
  | settled hr₀ =>
      rw [Task.put, Session.note, MemoTable.get?_insert, if_neg (hne hr₀)] at he'
      exact ⟨e', he', hrecords⟩
  | grown hr₀ _ _ hplant =>
      cases hplant
      rw [Task.put, Session.note, MemoTable.get?_insert, if_neg (hne hr₀), MemoTable.get?_insert,
        if_neg (hne hr₀)] at he'
      exact ⟨e', MemoTable.get?_of_get?_removeAll he', hrecords⟩

theorem Steps.records (h : Steps task rules s s') (hr : ¬ rules r) {e' : Entry}
    (he' : s'.memo.get? p r = some e') (hrecords : e'.Records outcome) :
    ∃ e, s.memo.get? p r = some e ∧ e.Records outcome := by
  induction h generalizing e' with
  | refl => exact ⟨e', he', hrecords⟩
  | tail _ hstep ih =>
      obtain ⟨e, he, hrecords⟩ := hstep.records hr he' hrecords
      exact ih he hrecords

end Untouched

/-- A table inside the applications `active`, none of which has been met again: all others are
settled, with what they would come to if they were run again. -/
structure Tidy (g : Grammar) (subject : Subject) (active : List Call) (m : MemoTable) : Prop where
  inProgress : ∀ c ∈ active, m.get? c.position c.rule = some .inProgress
  settled : ∀ {r p e}, ⟨r, p⟩ ∉ active → m.get? p r = some e →
    ∃ outcome f, e.Records outcome ∧ Yields g subject r p outcome f

section Tables

variable {ω : Type} {g : Grammar} {subject : Subject} {active : List Call} {m : MemoTable}
  {s : Session ω} {r : RuleId} {p : Nat}

theorem Tidy.congr {m' : MemoTable} (h : Tidy g subject active m)
    (hget : ∀ p r, m'.get? p r = m.get? p r) : Tidy g subject active m' where
  inProgress c hc := (hget _ _).trans (h.inProgress c hc)
  settled hc he := h.settled hc ((hget _ _).symm.trans he)

theorem Tidy.notMem (h : Tidy g subject active m) (hnone : m.get? p r = none) : ⟨r, p⟩ ∉ active :=
  fun hmem => nomatch (h.inProgress _ hmem).symm.trans hnone

theorem get?_enlist (h : Tidy g subject active s.memo) (p' : Nat) (r' : RuleId) :
    (s.enlist active r p).memo.get? p' r' = s.memo.get? p' r' := by
  have hheads : ∀ c ∈ active.takeWhile (fun c => c.position = p),
      s.memo.get? p c.rule = some .inProgress := by
    intro c hc
    have hposition : c.position = p := by simpa using List.mem_takeWhile_imp hc
    rw [← hposition]
    exact h.inProgress c (List.takeWhile_subset _ hc)
  rw [Session.enlist]
  generalize active.takeWhile (fun c => c.position = p) = heads at hheads
  generalize s.memo = m at hheads
  dsimp only
  induction heads generalizing m with
  | nil => rfl
  | cons c heads ih =>
      obtain ⟨hc, hheads⟩ := List.forall_mem_cons.1 hheads
      -- an entry in progress is not growing, so it is left as it is
      have hupdate : ∀ p' r', (m.update p c.rule fun entry =>
          if entry.isGrowing && c.rule ≠ r then entry.addDependents [r] else entry).get? p' r' =
            m.get? p' r' := by
        intro p' r'
        rw [MemoTable.get?_update]
        split
        · rename_i hsite
          obtain ⟨rfl, rfl⟩ := hsite
          rw [hc]
          rfl
        · rfl
      rw [List.foldl_cons, ih _ fun d hd => (hupdate _ _).trans (hheads d hd)]
      exact hupdate p' r'

theorem Tidy.entered (task : Task ω) (h : Tidy g subject active s.memo)
    (hnone : s.memo.get? p r = none) :
    Tidy g subject (⟨r, p⟩ :: active) (task.entered active r p s).memo where
  inProgress c hc := by
    rw [Task.entered, Session.note, MemoTable.get?_insert]
    split
    · rfl
    · rename_i hne
      rw [get?_enlist h]
      rcases List.mem_cons.1 hc with rfl | hc
      · exact absurd ⟨rfl, rfl⟩ hne
      · exact h.inProgress c hc
  settled {r' p' e} hc he := by
    rw [Task.entered, Session.note, MemoTable.get?_insert_of_ne, get?_enlist h] at he
    · exact h.settled (fun hmem => hc (List.mem_cons_of_mem _ hmem)) he
    · rintro ⟨rfl, rfl⟩
      exact hc List.mem_cons_self

theorem Tidy.finish {entry : Entry} {outcome : Outcome Found} {f : Failure}
    (h : Tidy g subject (⟨r, p⟩ :: active) m) (hfresh : ⟨r, p⟩ ∉ active)
    (hrecords : entry.Records outcome) (hyields : Yields g subject r p outcome f) :
    Tidy g subject active (m.insert p r entry) where
  inProgress c hc := by
    rw [MemoTable.get?_insert_of_ne]
    · exact h.inProgress c (List.mem_cons_of_mem _ hc)
    · rintro ⟨rfl, rfl⟩
      exact hfresh hc
  settled {r' p' e} hc he := by
    rcases MemoTable.eq_or_of_get?_insert he with ⟨rfl, rfl, rfl⟩ | ⟨hne, he⟩
    · exact ⟨outcome, f, hrecords, hyields⟩
    · refine h.settled (fun hmem => ?_) he
      rcases List.mem_cons.1 hmem with heq | hmem
      · cases heq
        exact hne ⟨rfl, rfl⟩
      · exact hc hmem

theorem settle_fresh (task : Task ω) (active : List Call) {result : Outcome Found × Session ω}
    (hnone : result.1.error? = none) (hentry : result.2.memo.get? p r = some .inProgress) :
    ∃ entry action, entry.Records result.1 ∧
      task.settle active r p result =
        .done result.1 (task.put active r p entry action result.2) := by
  obtain ⟨attempt, s⟩ := result
  unfold Task.settle
  dsimp only at hentry ⊢
  rw [hentry]
  cases attempt with
  | ok found => exact ⟨_, _, .matched rfl rfl, rfl⟩
  | backtrack f => exact ⟨_, _, .failed rfl rfl, rfl⟩
  | abort => contradiction

end Tables

/-! ### Where reports count -/

/-- What is used inside a lookahead, directly or through rules. -/
inductive Grammar.Shielded (g : Grammar) : Part → Prop where
  | operand {id a : AtomId} {positive : Bool} : g.atoms[id]? = some (.lookahead a positive) →
      g.Shielded (.atom a)
  | body {r rule} : g.Shielded (.rule r) → g.rules[r]? = some rule → g.Shielded (.atom rule.body)
  | child {id c atom} : g.Shielded (.atom id) → g.atoms[id]? = some atom → c ∈ atom.children →
      g.Shielded (.atom c)
  | call {id r} : g.Shielded (.atom id) → g.atoms[id]? = some (.rule r) → g.Shielded (.rule r)

def Grammar.shielded (g : Grammar) : Region g where
  rules r := g.Shielded (.rule r)
  atoms a := g.Shielded (.atom a)
  body h hrule := .body h hrule
  child h hatom _ hc := .child h hatom hc
  call h hatom := .call h hatom

/-- What a start rule uses outside of negative lookaheads, whose reports are always forgotten. -/
inductive Grammar.Exposed (g : Grammar) (start : RuleId) : Part → Prop where
  | start : g.Exposed start (.rule start)
  | body {r rule} : g.Exposed start (.rule r) → g.rules[r]? = some rule →
      g.Exposed start (.atom rule.body)
  | child {id c atom} : g.Exposed start (.atom id) → g.atoms[id]? = some atom →
      (∀ a, atom ≠ .lookahead a false) → c ∈ atom.children → g.Exposed start (.atom c)
  | call {id r} : g.Exposed start (.atom id) → g.atoms[id]? = some (.rule r) →
      g.Exposed start (.rule r)

/-- No report was forgotten of a rule that is not used inside lookaheads. -/
structure Faithful (g : Grammar) (subject : Subject) {ω ω' : Type} (s : Session ω)
    (t : Session ω') :
    Prop where
  furthest : s.furthest ≤ t.furthest
  remembered : ∀ {r p e outcome f}, ¬ g.Shielded (.rule r) → t.memo.get? p r = some e →
    e.Records outcome → Yields g subject r p outcome f → f ≤ t.furthest

/-- A parse without a table beside one with a table, which reports no more; and no less, if that
is asked for. -/
structure Reports (g : Grammar) (subject : Subject) (strict : Prop)
    (active : List Call) {ω ω' : Type} (s : Session ω) (t : Session ω') : Prop where
  tidy : Tidy g subject active t.memo
  le : t.furthest ≤ s.furthest
  faithful : strict → Faithful g subject s t

section Reports

variable {g : Grammar} {subject : Subject} {strict : Prop} {active : List Call} {s : Session Unit}
  {t : Session (List Sight)} {start r : RuleId} {p : Nat} {room room' : Nat}

variable (g subject) in
/-- The two lose each other when there is no more room for the first, or when a rule meets
itself. -/
def reports (strict : Prop) (active : List Call) :
    Comparison g subject .silent .sights active active where
  Alike := Reports g subject strict active
  Lost e _ t := e.isSome = true ∨ ∃ x ∈ t.log, ∃ r p, x.event = .rule r p .reentered
  note _ _ h := ⟨h.tidy, h.le, fun hstrict =>
    ⟨(h.faithful hstrict).furthest, (h.faithful hstrict).remembered⟩⟩
  fail f h := ⟨h.tidy, sup_le_sup_right h.le f, fun hstrict =>
    ⟨sup_le_sup_right (h.faithful hstrict).furthest f, fun hr he hrecords hyields =>
      le_sup_of_le_left ((h.faithful hstrict).remembered hr he hrecords hyields)⟩⟩
  lost_first _ _ h := h.elim nofun .inr
  lost_second h hgoes := h.imp_right fun ⟨x, hx, hevent⟩ => ⟨x, hgoes.suffix.subset hx, hevent⟩

theorem replay_reports {e : Entry} (hr : strict → ¬ g.Shielded (.rule r))
    (h : Reports g subject strict active s t) (he : t.memo.get? p r = some e) :
    (reports g subject strict active).Holds (Task.rerun ⟨g, subject, .silent⟩ room active r p s)
      (Task.replay ⟨g, subject,
        .sights⟩ active r p e { t with memo := (t.memo.lookup p r).2 }) := by
  have hlookup := t.memo.get?_lookup p r
  by_cases hactive : ⟨r, p⟩ ∈ active
  · cases he.symm.trans (h.tidy.inProgress _ hactive)
    exact .inr (.inr ⟨_, List.mem_cons_self, r, p, rfl⟩)
  · obtain ⟨outcome, f, hrecords, hyields⟩ := h.tidy.settled hactive he
    by_cases hnone : (Task.rerun ⟨g, subject, .silent⟩ room active r p s).1.error? = none
    · obtain ⟨houtcome, hfurthest⟩ := hyields.rerun_eq hnone
      rw [hrecords.replay_eq]
      refine .inl ⟨houtcome, hnone, h.tidy.congr hlookup, ?_, fun hstrict => ⟨?_, ?_⟩⟩
      · rw [hfurthest]
        exact le_sup_of_le_left h.le
      · rw [hfurthest]
        exact sup_le (h.faithful hstrict).furthest
          ((h.faithful hstrict).remembered (hr hstrict) he hrecords hyields)
      · exact fun hr' he' => (h.faithful hstrict).remembered hr' ((hlookup _ _).symm.trans he')
    · exact .inr (.inl (Option.isSome_iff_ne_none.2 hnone))

/-- What lookaheads forget was reported inside of them. -/
theorem Reports.forget {strict' : Prop} {s' : Session Unit} {t' : Session (List Sight)}
    (h : Reports g subject strict active s t) (h' : Reports g subject strict' active s' t')
    (hsteps : Steps ⟨g, subject, .sights⟩ g.shielded.rules t t') :
    Reports g subject strict active { s' with furthest := s.furthest }
      { t' with furthest := t.furthest } where
  tidy := h'.tidy
  le := h.le
  faithful hstrict := by
    refine ⟨(h.faithful hstrict).furthest, fun hr he hrecords hyields => ?_⟩
    obtain ⟨e, he, hrecords⟩ := hsteps.records hr he hrecords
    exact (h.faithful hstrict).remembered hr he hrecords hyields

/-- What a positive lookahead fails for is reported, so its operand has to report no less. -/
theorem lookahead_reports {eval : Eval Unit} {eval' : Eval (List Sight)} {a : AtomId}
    {positive : Bool} (hweak : (reports g subject False active).Related eval eval' a)
    (hpositive : positive = true → (reports g subject strict active).Related eval eval' a)
    (hsteps : ∀ p out t, Steps ⟨g, subject, .sights⟩ g.shielded.rules t (eval' a p out t).2)
    (p : Nat) (out : Array ParseTree) (h : Reports g subject strict active s t) :
    (reports g subject strict active).Holds (Task.lookahead eval a positive p out s)
      (Task.lookahead eval' a positive p out t) := by
  have hafter : ∀ {outcome t'}, eval' a p #[] t = (outcome, t') →
      Steps ⟨g, subject, .sights⟩ g.shielded.rules t t' := fun hy => by
    have hsteps' := hsteps p #[] t
    rwa [hy] at hsteps'
  rw [lookahead_eq, lookahead_eq]
  cases positive with
  | false =>
      -- what the operand reports is dropped, and then it does not matter if the table reports less
      have hholds := hweak p #[] s t ⟨h.tidy, h.le, nofun⟩
      exact hholds.proceed_into (fun hlost => hlost)
        (fun _ s' t' hy h' => Comparison.holds_backtrack _ (h.forget h' (hafter hy)))
        (fun _ s' t' hy h' => Comparison.holds_ok _ (h.forget h' (hafter hy)))
        (fun _ _ => .single (.furthest _)) fun _ _ => .single (.furthest _)
  | true =>
      have hholds := hpositive rfl p #[] s t h
      exact hholds.proceed_into (fun hlost => hlost)
        (fun _ s' t' hy h' => Comparison.holds_ok _ (h.forget h' (hafter hy)))
        (fun f s' t' hy h' => Comparison.holds_backtrack f h')
        (fun _ _ => .single (.furthest _)) fun _ _ => .refl

theorem Reports.lookup (h : Reports g subject strict active s t) (p : Nat) (r : RuleId) :
    Reports g subject strict active s { t with memo := (t.memo.lookup p r).2 } where
  tidy := h.tidy.congr (t.memo.get?_lookup p r)
  le := h.le
  faithful hstrict := ⟨(h.faithful hstrict).furthest, fun hr he =>
    (h.faithful hstrict).remembered hr ((t.memo.get?_lookup p r _ _).symm.trans he)⟩

theorem Reports.entered (h : Reports g subject strict active s t) (hnone : t.memo.get? p r = none) :
    Reports g subject strict (⟨r, p⟩ :: active) s
      (Task.entered ⟨g, subject, .sights⟩ active r p t) where
  tidy := h.tidy.entered _ hnone
  le := h.le
  faithful hstrict := by
    refine ⟨(h.faithful hstrict).furthest, fun hr he hrecords hyields => ?_⟩
    rw [Task.entered, Session.note] at he
    rcases MemoTable.eq_or_of_get?_insert he with ⟨-, -, rfl⟩ | ⟨-, he⟩
    · cases hrecords.isFinal
    · exact (h.faithful hstrict).remembered hr
        ((get?_enlist h.tidy _ _).symm.trans he) hrecords hyields

theorem Reports.finish {entry : Entry} {action : Action} {outcome : Outcome Found}
    {f : Failure} (h : Reports g subject strict (⟨r, p⟩ :: active) s t) (hfresh : ⟨r, p⟩ ∉ active)
    (hrecords : entry.Records outcome) (hyields : Yields g subject r p outcome f)
    (hfurthest : f ≤ s.furthest) :
    Reports g subject strict active s
      (Task.put ⟨g, subject, .sights⟩ active r p entry action t) where
  tidy := h.tidy.finish hfresh hrecords hyields
  le := h.le
  faithful hstrict := by
    refine ⟨(h.faithful hstrict).furthest, fun hr he hrecords' hyields' => ?_⟩
    rw [Task.put, Session.note] at he
    rcases MemoTable.eq_or_of_get?_insert he with ⟨rfl, rfl, rfl⟩ | ⟨-, he⟩
    · rw [(hyields'.unique hyields).2]
      exact hfurthest.trans (h.faithful hstrict).furthest
    · exact (h.faithful hstrict).remembered hr he hrecords' hyields'

theorem body_reports {apply : Apply Unit} {apply' : Apply (List Sight)}
    (hshielded : ∀ r, g.Shielded (.rule r) → ∀ p t,
      Steps ⟨g, subject, .sights⟩ g.shielded.rules t (apply' r p t).2)
    (hgoes : ∀ r p t, Task.Goes ⟨g, subject, .sights⟩ t (apply' r p t).2)
    (hweak : ∀ r p s t, Reports g subject False active s t →
      (reports g subject False active).Holds (apply r p s) (apply' r p t))
    (hstrict : ∀ r, (strict → g.Exposed start (.rule r)) →
      ∀ p s t, Reports g subject strict active s t →
      (reports g subject strict active).Holds (apply r p s) (apply' r p t))
    (hr : strict → g.Exposed start (.rule r)) (p : Nat) (h : Reports g subject strict active s t) :
    (reports g subject strict active).Holds (Task.body ⟨g, subject, .silent⟩ apply active r p s)
      (Task.body ⟨g, subject, .sights⟩ apply' active r p t) := by
  have hsteps : ∀ bound {a}, g.Shielded (.atom a) → ∀ p out t,
      Steps ⟨g, subject, .sights⟩ g.shielded.rules t
        (Task.eval ⟨g, subject, .sights⟩ apply' active bound a p out t).2 :=
          fun bound a ha p out t =>
    @eval_steps _ ⟨g, subject, .sights⟩ g.shielded apply' hshielded active bound a ha p out t
  have heval : ∀ bound a, (reports g subject False active).Related
      (Task.eval ⟨g, subject, .silent⟩ apply active bound)
      (Task.eval ⟨g, subject, .sights⟩ apply' active bound) a := by
    intro bound a
    refine Comparison.eval_related hgoes (fun _ _ _ _ _ => trivial) (fun {_ r} _ _ => hweak r)
      (fun bound _ hatom heval p out s t h => ?_) bound trivial
    exact lookahead_reports (heval _ trivial)
      (fun _ => heval _ trivial) (hsteps bound (.operand hatom)) p out h
  have hchild : ∀ {id : AtomId} {atom : Atom}, (strict → g.Exposed start (.atom id)) →
      g.atoms[id]? = some atom → (∀ a positive, atom ≠ .lookahead a positive) →
        ∀ c ∈ atom.children, strict → g.Exposed start (.atom c) :=
    fun hid hatom hplain c hc hstrict => .child (hid hstrict) hatom (fun a => hplain a false) hc
  refine Comparison.body_related (C := reports g subject strict active) hgoes hchild
    (fun {_ r} hid hatom => hstrict r fun hstrict => .call (hid hstrict) hatom)
    (fun {id a positive} bound hid hatom heval' p out s t h => ?_)
    (fun rule hrule hstrict => .body (hr hstrict) hrule) p h
  refine lookahead_reports (heval bound a) (fun hpositive => heval' a fun hstrict => ?_)
    (hsteps bound (.operand hatom)) p out h
  subst hpositive
  exact .child (hid hstrict) hatom nofun List.mem_cons_self

variable (hseparate : strict → ∀ r, g.Exposed start (.rule r) → ¬ g.Shielded (.rule r))

include hseparate in
/-- A parse that remembers what rules came to comes to what one does that runs them again. -/
theorem apply_reports (hroom : room ≤ room') (hr : strict → g.Exposed start (.rule r))
    (h : Reports g subject strict active s t) :
    (reports g subject strict active).Holds (Task.rerun ⟨g, subject, .silent⟩ room active r p s)
      (Task.apply ⟨g, subject, .sights⟩ room' active r p t) := by
  induction room generalizing strict room' active r p s t with
  | zero => exact .inr (.inl rfl)
  | succ room ih =>
      obtain ⟨room', rfl⟩ : ∃ n, room' = n + 1 := ⟨room' - 1, by omega⟩
      have hroom' := Nat.le_of_succ_le_succ hroom
      rw [Task.apply_succ]
      cases he : t.memo.get? p r with
      | some e => exact replay_reports (fun hstrict => hseparate hstrict r (hr hstrict)) h he
      | none =>
          have hfresh := h.tidy.notMem he
          have hgoes := Task.apply_goes ⟨g, subject, .sights⟩ room' (⟨r, p⟩ :: active)
          have hentered := (h.lookup p r).entered ((t.memo.get?_lookup p r p r).trans he)
          -- the induction is used twice: below negative lookaheads, where nothing is strict,
          -- and elsewhere
          have hbody := body_reports (fun r' hr' p' t' => @apply_steps _ ⟨g, subject, .sights⟩
              g.shielded room' (⟨r, p⟩ :: active) r' hr' p' t') hgoes
            (fun r' p' s' t' h' => ih nofun hroom' nofun h')
            (fun r' hr' p' s' t' h' => ih hseparate hroom' hr' h') hr p hentered
          rcases hbody with ⟨houtcome, hnone, hreports⟩ | hlost
          · have hrerun : (Task.rerun ⟨g, subject, .silent⟩ (room + 1) active r p s).1.error? =
                none := hnone
            obtain ⟨f, hyields, hfurthest⟩ := exists_yields hrerun
            obtain ⟨entry, action, hrecords, hsettle⟩ := settle_fresh ⟨g, subject, .sights⟩ active
              (houtcome ▸ hnone) (hreports.tidy.inProgress _ List.mem_cons_self)
            rw [Task.grow, hsettle]
            refine .inl ⟨houtcome, hrerun, hreports.finish hfresh (houtcome ▸ hrecords) hyields ?_⟩
            exact le_sup_right.trans_eq hfurthest.symm
          · exact .inr ((reports g subject strict active).lost_second hlost
              (grow_succ_steps trivial p (grow_steps trivial p (Task.body_goes _ hgoes _ r p) _) _))

end Reports

/-! ### Parses -/

/-- What a rule at the start of the input comes to without a table, with room for every rule at
every position. -/
def attemptAfresh (g : Grammar) (input : Input) (start : RuleId) : Outcome Found × Session Unit :=
  Task.rerun ⟨g, .ofInput input, .silent⟩ (g.rules.size * (input.length + 1) + 1) [] start 0
    ⟨.empty, .here 0, ()⟩

section Attempts

variable {ω : Type} {g : Grammar} {input : Input} {observer : Observer ω} {log : ω} {start : RuleId}
  {d : Nat} (hg : g.WellFormed) (hR : hg.region.Satisfiable)
  (hrec : ∀ r, g.leftEdge.isLeftRecursive r = false) (hstart : start < g.rules.size)

include hR hrec hstart in
theorem error?_attemptAfresh : (attemptAfresh g input start).1.error? = none := by
  refine error?_rerun_roomy hg .silent hR (fun r hr => ?_) hstart _
  cases (hrec r).symm.trans (isLeftRecursive_iff.2 hr)

include hR hrec hstart in
theorem not_reentered : ¬ ∃ x ∈ (attempt g input .sights [] start d).2.log, ∃ r p,
    x.event = .rule r p .reentered := by
  rintro ⟨x, hx, r, p, hevent⟩
  cases (hrec r).symm.trans ((attempt_covered hg hR hstart x hx).reentered r p hevent)

include hR hrec hstart in
theorem attempt_reports (hnone : (attempt g input observer log start d).1.error? = none) :
    (attempt g input observer log start d).1 = (attemptAfresh g input start).1 ∧
      (attempt g input observer log start d).2.furthest ≤ (attemptAfresh g input start).2.furthest ∧
        ((∀ r, g.Exposed start (.rule r) → ¬ g.Shielded (.rule r)) →
          (attempt g input observer log start d).2.furthest =
            (attemptAfresh g input start).2.furthest) := by
  obtain ⟨houtcome, -, hfurthest⟩ := attempt_watched .sights [] hnone
  have hwider := attempt_eq_of_le (houtcome ▸ hnone)
    (Nat.le_max_left d (g.rules.size * (input.length + 1) + 1))
  have hempty : ∀ {r p} {e : Entry}, MemoTable.empty.get? p r ≠ some e := fun he =>
    nomatch (MemoTable.get?_empty _ _).symm.trans he
  have hholds : (reports g (.ofInput input)
      (∀ r, g.Exposed start (.rule r) → ¬ g.Shielded (.rule r)) []).Holds
        (attemptAfresh g input start)
        (attempt g input .sights [] start (max d (g.rules.size * (input.length + 1) + 1))) :=
    apply_reports id (Nat.le_max_right _ _) (fun _ => .start)
      ⟨⟨nofun, fun _ he => absurd he hempty⟩, le_rfl,
        fun _ => ⟨le_rfl, fun _ he => absurd he hempty⟩⟩
  rw [hwider] at hholds
  rcases hholds with ⟨hsame, -, hreports⟩ | hlost | hmet
  · rw [← houtcome, ← hfurthest]
    exact ⟨hsame.symm, hreports.le, fun hseparate =>
      le_antisymm hreports.le (hreports.faithful hseparate).furthest⟩
  · rw [error?_attemptAfresh hg hR hrec hstart] at hlost
    contradiction
  · exact absurd hmet (not_reentered hg hR hrec hstart)

end Attempts

/-- One verdict beside another, the same but for a report that may say more. -/
inductive Understates (subject : Subject) :
    Except ParseError ParseTree → Except ParseError ParseTree → Prop where
  | parsed {tree : ParseTree} : Understates subject (.ok tree) (.ok tree)
  | failed {f f' : Failure} : f ≤ f' →
      Understates subject (.error (.failed f.position f.expected (subject.location f.position)))
        (.error (.failed f'.position f'.expected (subject.location f'.position)))
  | incomplete {stop : Nat} {f f' : Failure} : f ≤ f' →
      Understates subject
        (.error (.incomplete stop f.position f.expected (subject.location f.position)))
        (.error (.incomplete stop f'.position f'.expected (subject.location f'.position)))

namespace Parser

section Verdicts

variable {ω ω' : Type} {subject : Subject} {x : Outcome Found × Session ω}
  {y : Outcome Found × Session ω'}

theorem conclude_understates (houtcome : x.1 = y.1) (hnone : x.1.error? = none)
    (hfurthest : x.2.furthest ≤ y.2.furthest) :
    Understates subject (conclude subject x) (conclude subject y) := by
  obtain ⟨outcome, s⟩ := x
  obtain ⟨_, t⟩ := y
  cases houtcome
  unfold conclude
  cases outcome with
  | ok found =>
      dsimp only
      split
      · exact .parsed
      · rw [incompleteAt_eq, incompleteAt_eq]
        exact .incomplete (sup_le_sup_right hfurthest _)
  | backtrack f => exact .failed (sup_le_sup_right hfurthest f)
  | abort => contradiction

end Verdicts

variable {parser : Parser} {input : Input} {start : RuleId}

/-- Without left recursion a parse comes to the same verdict with the memo table as without. Its
report says no more for the table: it is not about a position further on, and expects nothing
there that it would not expect without. It is the same if no rule that the start rule uses
outside of negative lookaheads is used inside a lookahead too. -/
theorem run_understates_afresh {atoms : Array Atom} {rules : Array Rule} {root : RuleId} {ω : Type}
    (observer : Observer ω) (log : ω) (hg : Grammar.ofParts atoms rules root = .ok parser.grammar)
    (hstart : start < parser.grammar.rules.size)
    (hmode : ∀ mode, parser.grammar.mode? = some mode → mode = input.mode)
    (hlimit : ∀ e, (parser.run observer log start input).1 = .error e → e.isLimit = false)
    (hrec : ∀ r, parser.grammar.leftEdge.isLeftRecursive r = false)
    (hrepetition : ∀ (id a : AtomId) (min : Nat),
      parser.grammar.atoms[id]? = some (.repetition a min (some 0)) → min = 0) :
    Understates (.ofInput input) (parser.run observer log start input).1
        (conclude (.ofInput input) (attemptAfresh parser.grammar input start)) ∧
      ((∀ r, parser.grammar.Exposed start (.rule r) → ¬ parser.grammar.Shielded (.rule r)) →
        (parser.run observer log start input).1 =
          conclude (.ofInput input) (attemptAfresh parser.grammar input start)) := by
  obtain ⟨hwf, -⟩ := Grammar.ofParts_eq_ok hg
  have hR : hwf.region.Satisfiable := fun _ hatom => hrepetition _ _ _ hatom
  cases hrefusal : refusal parser.grammar parser.config input with
  | some e =>
      have hrefused : (parser.run observer log start input).1 = .error e := by
        rw [run_refused hrefusal]
      cases (isLimit_of_refusal hmode hrefusal).symm.trans (hlimit e hrefused)
  | none =>
      rw [run_eq_attempt hrefusal] at hlimit ⊢
      have hnone : (attempt parser.grammar input observer log start
          parser.config.maxDepth).1.error? = none := by
        rcases attempt_cases (Nat.le_refl parser.config.maxDepth) with ⟨hnone, -⟩ | ⟨herror, -⟩
        · exact hnone
        · cases hlimit _ (conclude_abort (Outcome.eq_abort_of_error? herror))
      obtain ⟨houtcome, hle, heq⟩ := attempt_reports hwf hR hrec hstart hnone
      exact ⟨conclude_understates houtcome hnone hle, fun hseparate =>
        conclude_congr houtcome (heq hseparate)⟩

def reported : Except ParseError ParseTree → Option Failure
  | .error (.failed position expected _) => some ⟨position, expected⟩
  | .error (.incomplete _ position expected _) => some ⟨position, expected⟩
  | _ => none

/-- In `b` there is no `r` for `peeking`, neither where it looks ahead for one nor where it
would take one. Only a parse without a table says so. -/
theorem reported_peeking :
    Grammar.ofParts peeking.atoms peeking.rules 0 = .ok peeking ∧
      (∀ r < peeking.rules.size, peeking.leftEdge.isLeftRecursive r = false) ∧
      reported ((ofGrammar peeking {}).run .silent () 0 (.text "b")).1 =
        some ⟨0, .ofList ["'a'", "'z'"]⟩ ∧
      reported (conclude (.ofInput (.text "b")) (attemptAfresh peeking (.text "b") 0)) =
        some ⟨0, .ofList ["'a'", "'c'", "'z'"]⟩ :=
  ⟨ofParts_peeking, by decide +kernel, by decide +kernel, by decide +kernel⟩

/-- `s: !r 'a' | t? 'z'` with `r: 'c'` and `t: 'd'`. -/
def glancing : Grammar where
  atoms := #[.rule 1, .lookahead 0 false, .literal "a", .sequence [1, 2], .rule 2,
    .repetition 4 0 (some 1), .literal "z", .sequence [5, 6], .choice [3, 7],
    .literal "c", .literal "d"]
  rules := #[⟨"s", 8⟩, ⟨"r", 9⟩, ⟨"t", 10⟩]
  root := 0
  matchers := Array.replicate 11 none

set_option maxRecDepth 2000 in
theorem ofParts_glancing : Grammar.ofParts glancing.atoms glancing.rules 0 = .ok glancing := by
  with_unfolding_all rfl

theorem shielded_glancing {part : Part} (h : glancing.Shielded part) :
    part = .atom 0 ∨ part = .rule 1 ∨ part = .atom 9 := by
  induction h with
  | operand hatom =>
      have hmem := Array.mem_of_getElem? hatom
      simp only [glancing, List.mem_toArray, List.mem_cons, List.not_mem_nil, reduceCtorEq,
        Atom.lookahead.injEq, false_or, or_false] at hmem
      exact .inl (congrArg Part.atom hmem.1)
  | body _ hrule ih =>
      rcases ih with h | h | h <;> cases h
      cases Option.some.inj hrule
      exact .inr (.inr rfl)
  | child _ hatom hc ih =>
      rcases ih with h | h | h <;> cases h <;> cases Option.some.inj hatom
      · exact absurd hc List.not_mem_nil
      · exact absurd hc List.not_mem_nil
  | call _ hatom ih =>
      rcases ih with h | h | h <;> cases h <;> cases Option.some.inj hatom
      exact .inr (.inl rfl)

theorem exposed_glancing {part : Part} (h : glancing.Exposed 0 part) :
    part ≠ .atom 0 ∧ part ≠ .rule 1 := by
  have hbodies : ∀ rule ∈ glancing.rules, rule.body ≠ 0 := by decide
  have hchildren : ∀ atom ∈ glancing.atoms, atom ≠ .lookahead 0 false →
      ∀ c ∈ atom.children, c ≠ 0 := by
    decide
  have hcalls : ∀ id < glancing.atoms.size, glancing.atoms[id]? = some (.rule 1) →
      id = 0 := by decide
  induction h with
  | start => exact ⟨nofun, nofun⟩
  | body _ hrule =>
      exact ⟨fun heq => hbodies _ (Array.mem_of_getElem? hrule) (Part.atom.inj heq), nofun⟩
  | child _ hatom hplain hc =>
      exact ⟨fun heq => hchildren _ (Array.mem_of_getElem? hatom) (hplain 0) _ hc
        (Part.atom.inj heq), nofun⟩
  | call _ hatom ih =>
      refine ⟨nofun, fun heq => ih.1 ?_⟩
      cases heq
      rw [hcalls _ (Array.getElem?_eq_some_iff.1 hatom).1 hatom]

/-- With another rule to take, where it looks ahead for `r`, `glancing` reports the same with a
table as without. The report of `peeking` is not beyond the one without. -/
theorem run_understates_peeking_glancing :
    Understates (.ofInput (.text "b")) ((ofGrammar peeking {}).run .silent () 0 (.text "b")).1
        (conclude (.ofInput (.text "b")) (attemptAfresh peeking (.text "b") 0)) ∧
      ((ofGrammar glancing {}).run .silent () 0 (.text "b")).1 =
        conclude (.ofInput (.text "b")) (attemptAfresh glancing (.text "b") 0) := by
  constructor
  · exact (@run_understates_afresh (ofGrammar peeking {}) (.text "b") 0 _ _ _ _ .silent ()
      ofParts_peeking (by decide) (by decide) (noLimit_of_check (by decide +kernel))
      (isLeftRecursive_eq_false (by decide +kernel)) (by
        intro id a min hatom
        simpa [ofGrammar, peeking] using Array.mem_of_getElem? hatom)).1
  · refine (@run_understates_afresh (ofGrammar glancing {}) (.text "b") 0 _ _ _ _ .silent ()
      ofParts_glancing (by decide) (by decide) (noLimit_of_check (by decide +kernel))
      (isLeftRecursive_eq_false (by decide +kernel)) (by
        intro id a min hatom
        simpa [ofGrammar, glancing] using Array.mem_of_getElem? hatom)).2
          fun r hexposed hshielded => ?_
    rcases shielded_glancing hshielded with h | h | h <;> cases h
    exact (exposed_glancing hexposed).2 rfl

end Parser

end Seedling
