import Seedling.Proofs.Parse.Brackets
import Seedling.Proofs.Parse.Depth

/-!
What a parse writes to its trace. Whatever is evaluated inside some applications writes entries
that can be read with the frames of those applications, and leaves the frames as they are; an
application adds its own frame and takes it away again. The entries that say whether the memo
table had an answer are as many as the table has counted.
-/

namespace Seedling

namespace Action

def isMiss (a : Action) : Bool := a = .enter

def isHit (a : Action) : Bool := a = .replayed || a = .reentered

end Action

namespace Meets

variable {α ω : Type} {abort abort' : Session ω → Prop} {P : Option α → Session ω → Prop}
  {result : Outcome α × Session ω}

theorem exists_of_error? (h : Meets abort P result) (herror : result.1.error? = none) :
    ∃ o, P o result.2 := by
  obtain ⟨a | _ | _, s⟩ := result
  · exact ⟨some a, h⟩
  · exact ⟨none, h⟩
  · contradiction

theorem isLimit_of_error? {e : ParseError} (h : Meets abort P result)
    (herror : result.1.error? = some e) : e.isLimit = true := by
  obtain ⟨_ | _ | _, s⟩ := result
  · contradiction
  · contradiction
  · cases herror
    exact h.1

theorem of_error? {Q : Session ω → Prop} (h : Meets abort P result)
    (hQ : result.1.error? = none → Q result.2) : Meets abort (fun _ s => Q s) result := by
  obtain ⟨_ | _ | _, s⟩ := result
  · exact hQ rfl
  · exact hQ rfl
  · exact h

theorem and {Q : Option α → Session ω → Prop} (h : Meets abort P result)
    (h' : Meets abort' Q result) : Meets abort' (fun o s => P o s ∧ Q o s) result := by
  obtain ⟨_ | _ | _, s⟩ := result
  · exact ⟨h, h'⟩
  · exact ⟨h, h'⟩
  · exact h'

end Meets

/-! ### What the table counts -/

namespace MemoTable

def counts (m : MemoTable) : Nat × Nat := (m.hits, m.misses)

variable (m : MemoTable) (p : Nat) (r : RuleId)

theorem counts_update (f : Entry → Entry) : (m.update p r f).counts = m.counts := by
  rw [update]
  split <;> rfl

@[simp] theorem counts_removeAll (rules : List RuleId) :
    (rules.foldl (fun memo other => memo.remove p other) m).counts = m.counts := by
  induction rules generalizing m with
  | nil => rfl
  | cons other rules ih => exact ih (m.remove p other)

theorem counts_lookup : (m.lookup p r).2.counts =
    if (m.get? p r).isSome then (m.hits + 1, m.misses) else (m.hits, m.misses + 1) := by
  rw [lookup]
  cases m.get? p r <;> rfl

end MemoTable

theorem Session.counts_enlist {ω : Type} (s : Session ω) (active : List Call)
    (r : RuleId) (p : Nat) : (s.enlist active r p).memo.counts = s.memo.counts := by
  rw [enlist]
  generalize active.takeWhile (fun c => c.position = p) = heads
  generalize s.memo = m
  dsimp only
  induction heads generalizing m with
  | nil => rfl
  | cons c heads ih => exact (ih _).trans (m.counts_update p c.rule _)

theorem Session.counts_reenter {ω : Type} (s : Session ω) (active : List Call)
    (r : RuleId) (p : Nat) : (s.reenter active r p).memo.counts = s.memo.counts := by
  rw [reenter]
  split
  · exact (MemoTable.counts_update _ p r _).trans (s.memo.counts_update p r _)
  · exact s.memo.counts_update p r _

/-! ### What is written -/

/-- What has been written to the trace, and counted by the table. -/
structure Writes (new : List TraceEntry) (s s' : Session (List TraceEntry)) : Prop where
  log : s'.log = new.reverse ++ s.log
  hits : s'.memo.hits = s.memo.hits + new.countP fun e => e.action.isHit
  misses : s'.memo.misses = s.memo.misses + new.countP fun e => e.action.isMiss

namespace Writes

variable {new new' : List TraceEntry} {e : TraceEntry} {s s' s'' : Session (List TraceEntry)}

theorem refl (s : Session (List TraceEntry)) : Writes [] s s := ⟨rfl, rfl, rfl⟩

theorem trans (h : Writes new s s') (h' : Writes new' s' s'') : Writes (new ++ new') s s'' where
  log := by rw [h'.log, h.log, List.reverse_append, List.append_assoc]
  hits := by rw [h'.hits, h.hits, List.countP_append, Nat.add_assoc]
  misses := by rw [h'.misses, h.misses, List.countP_append, Nat.add_assoc]

theorem one (hlog : s'.log = e :: s.log)
    (hcounts : s'.memo.counts = (s.memo.hits + e.action.isHit.toNat,
    s.memo.misses + e.action.isMiss.toNat)) :
    Writes [e] s s' where
  log := hlog
  hits := by
    rw [show s'.memo.hits = _ from congrArg Prod.fst hcounts, List.countP_singleton]
    cases e.action.isHit <;> rfl
  misses := by
    rw [show s'.memo.misses = _ from congrArg Prod.snd hcounts, List.countP_singleton]
    cases e.action.isMiss <;> rfl

end Writes

def Stacked (g : Grammar) (active : List Call) (st : List Frame) : Prop :=
  st.map (fun f => (f.rule, f.position)) = active.map fun c => (g.ruleName c.rule, c.position)

section Stacks

variable {g : Grammar} {active : List Call} {st : List Frame} {r : RuleId} {p : Nat}

theorem Stacked.length (h : Stacked g active st) : st.length = active.length := by
  simpa using congrArg List.length h

theorem Stacked.cons (h : Stacked g active st) (r : RuleId) (p : Nat) (seed : Option Nat) :
    Stacked g (⟨r, p⟩ :: active) (⟨g.ruleName r, p, seed⟩ :: st) :=
  congrArg ((g.ruleName r, p) :: ·) h

theorem Stacked.exists_frame (h : Stacked g active st) (hmem : ⟨r, p⟩ ∈ active) :
    ∃ f ∈ st, f.IsAt (g.ruleName r) p := by
  have hpair : (g.ruleName r, p) ∈ st.map fun f => (f.rule, f.position) := by
    rw [h]
    exact List.mem_map.2 ⟨_, hmem, rfl⟩
  obtain ⟨f, hf, heq⟩ := List.mem_map.1 hpair
  exact ⟨f, hf, congrArg Prod.fst heq, congrArg Prod.snd heq⟩

def Grammar.Named (g : Grammar) : Prop :=
  ∀ r r', r < g.rules.size → r' < g.rules.size → g.ruleName r = g.ruleName r' → r = r'

theorem Stacked.not_isAt (h : Stacked g active st) (hnames : g.Named)
    (hactive : ∀ c ∈ active, c.rule < g.rules.size) (hr : r < g.rules.size)
    (hfresh : ⟨r, p⟩ ∉ active) : ∀ f ∈ st, ¬ f.IsAt (g.ruleName r) p := by
  intro f hf hat
  have hpair : (f.rule, f.position) ∈ active.map fun c => (g.ruleName c.rule, c.position) := by
    rw [← h]
    exact List.mem_map.2 ⟨f, hf, rfl⟩
  obtain ⟨⟨r', p'⟩, hc, heq⟩ := List.mem_map.1 hpair
  obtain rfl : r' = r := hnames r' r (hactive _ hc) hr ((congrArg Prod.fst heq).trans hat.1)
  obtain rfl : p' = p := (congrArg Prod.snd heq).trans hat.2
  exact hfresh hc

end Stacks

/-- What was evaluated inside some applications left their frames as they were. -/
def Logged (g : Grammar) (active : List Call) (s s' : Session (List TraceEntry)) : Prop :=
  ∃ new, Writes new s s' ∧ ∀ st, Stacked g active st → Frame.Run st new st

theorem Logged.refl {g : Grammar} {active : List Call} (s : Session (List TraceEntry)) :
    Logged g active s s :=
  ⟨[], .refl s, fun _ _ => .nil⟩

theorem Logged.trans {g : Grammar} {active : List Call} {s s' s'' : Session (List TraceEntry)}
    (h : Logged g active s s') (h' : Logged g active s' s'') : Logged g active s s'' := by
  obtain ⟨new, hwrites, hrun⟩ := h
  obtain ⟨new', hwrites', hrun'⟩ := h'
  exact ⟨new ++ new', hwrites.trans hwrites', fun st hst => (hrun st hst).append (hrun' st hst)⟩

/-- What an application adds to its trace behind its opening entry, given its seed. -/
def Finishes (g : Grammar) (active : List Call) (r : RuleId) (p : Nat) (seed : Option Found)
    (new : List TraceEntry) : Prop :=
  ∀ st, Stacked g active st → Frame.Run (⟨g.ruleName r, p, seed.map Found.stop⟩ :: st) new st

/-! ### Growth -/

namespace Grammar

abbrev tracing (g : Grammar) (input : Input) : Task (List TraceEntry) :=
  ⟨g, .ofInput input, .tracer g⟩

end Grammar

section Tracing

variable {g : Grammar} {input : Input} {L : Reading (g.tracing input)}
  {active : List Call} {r : RuleId}
  {p : Nat} {s s' : Session (List TraceEntry)}

open Unlimited Reading

def RoundLogged (g : Grammar) (active : List Call) (r : RuleId) (p : Nat) (seed : Option Found)
    (s : Session (List TraceEntry)) : Task.Round (List TraceEntry) → Prop
  | .done outcome s' =>
    outcome.error? = none → ∃ e, Writes [e] s s' ∧ Finishes g active r p seed [e]
  | .again s' => ∃ e, Writes [e] s s' ∧ ∀ st, Stacked g active st →
      Frame.Step (⟨g.ruleName r, p, seed.map Found.stop⟩ :: st) e
        (⟨g.ruleName r, p, (seedsOf s' ⟨r, p⟩).map Found.stop⟩ :: st)

theorem settle_logged {entry : Entry} {attempt : Outcome Found}
    {round : Task.Round (List TraceEntry)}
    (h : RoundsTo (g.tracing input) active r p entry (attempt, s) round) :
    RoundLogged g active r p entry.found? s round := by
  have haccept : ∀ {found : Found}, (∀ seed, entry.found? = some seed → found = seed) →
      RoundLogged g active r p entry.found? s
        ((g.tracing input).accept active r p entry found s) := by
    intro found hseed _
    refine ⟨⟨p, g.ruleName r, .matched found.stop, active.length + 1⟩, .one rfl rfl,
      fun st hst => ?_⟩
    rw [← hst.length]
    refine .cons (Frame.Step.matched (f := ⟨g.ruleName r, p, _⟩) fun stop hstop => ?_) .nil
    obtain ⟨seed, hfound, rfl⟩ := Option.map_eq_some_iff.1 hstop
    rw [hseed seed hfound]
  cases h with
  | abort => exact fun h => by contradiction
  | passed hfound | outgrown hfound =>
      exact haccept fun seed hseed => Option.some.inj (hfound.symm.trans hseed)
  | matched hnone => exact haccept fun seed hseed => by cases hnone.symm.trans hseed
  | failed hnone =>
      intro _
      refine ⟨⟨p, g.ruleName r, .failed, active.length + 1⟩, .one rfl rfl, fun st hst => ?_⟩
      rw [← hst.length, hnone]
      exact .cons (Frame.Step.failed (f := ⟨g.ruleName r, p, _⟩) rfl) .nil
  | @grown found _ _ hout =>
      obtain ⟨_, ⟨⟩, hlonger⟩ := hout
      refine ⟨⟨p, g.ruleName r, .grow found.stop, active.length + 1⟩,
        .one rfl (s.memo.counts_removeAll p entry.dependents), fun st hst => ?_⟩
      rw [← hst.length, seedsOf_insert]
      refine Frame.Step.grow (f := ⟨g.ruleName r, p, _⟩) fun stop hstop => ?_
      obtain ⟨seed, hfound, rfl⟩ := Option.map_eq_some_iff.1 hstop
      exact hlonger seed hfound

/-- A rule that grows finishes its part of the trace if each evaluation of its body leaves the
frames as they are. -/
theorem grow_logged {abort : Session (List TraceEntry) → Prop}
    {body : Session (List TraceEntry) → Outcome Found × Session (List TraceEntry)}
    {σ : Call → Option Found} (hmay : L.May active r p)
    (hbody : ∀ s, L.Holds (⟨r, p⟩ :: active) s → Meets abort
      (fun o s' => L.Holds (⟨r, p⟩ :: active) s' ∧
        (Framed (⟨r, p⟩ :: active) s s' ∧ Logged g (⟨r, p⟩ :: active) s s') ∧
        Body g (.ofInput input) (L.Answered (⟨r, p⟩ :: active) s') r p o) (body s))
    {rounds : Nat} {s : Session (List TraceEntry)} (h : L.Growing active σ r p s)
    (hrounds : growthBound (Subject.ofInput input).length p (seedsOf s ⟨r, p⟩) ≤ rounds) :
    Meets abort (fun _ s' => ∃ new, Writes new s s' ∧ Finishes g active r p (seedsOf s ⟨r, p⟩) new)
      ((g.tracing input).grow active r p body rounds s) := by
  induction rounds generalizing s with
  | zero => exact absurd (Nat.lt_of_lt_of_le (growthBound_pos _ _ _) hrounds) (Nat.lt_irrefl 0)
  | succ rounds ih =>
      -- A round writes what the body does and one entry more: the end, or a longer seed.
      have hmeets := hbody s h.holds
      have hround := settle_meets hmay h (hmeets.imp fun _ _ h' => ⟨h'.1, h'.2.1.1, h'.2.2⟩)
      rw [Task.grow]
      rcases hresult : body s with ⟨attempt, s₁⟩
      rw [hresult] at hmeets hround
      cases herror : attempt.error? with
      | some e =>
          cases Outcome.eq_abort_of_error? herror
          rw [settle_abort]
          exact hmeets
      | none =>
          obtain ⟨o, hholds, ⟨hframe, new, hwrites, hrun⟩, -⟩ := hmeets.exists_of_error? herror
          obtain ⟨entry, hentry, -⟩ := (hholds.inProgress r p).1 List.mem_cons_self
          have hseed : entry.found? = seedsOf s ⟨r, p⟩ := (seedsOf_eq hentry).symm.trans
            (seedsOf_framed h.holds (List.Subset.refl _) hframe List.mem_cons_self)
          cases hsettle : (g.tracing input).settle active r p (attempt, s₁) with
          | done outcome s' =>
              have hlogged := settle_logged (Task.roundsTo_of_settle hentry hsettle)
              rw [hseed] at hlogged
              rw [hsettle, RoundMeets] at hround
              refine hround.of_error? fun herror => ?_
              obtain ⟨e, hwrites', hfinishes⟩ := hlogged herror
              exact ⟨new ++ [e], hwrites.trans hwrites', fun st hst =>
                (hrun _ (hst.cons r p _)).append (hfinishes st hst)⟩
          | again s' =>
              have hlogged := settle_logged (Task.roundsTo_of_settle hentry hsettle)
              rw [hseed] at hlogged
              rw [hsettle] at hround
              obtain ⟨e, hwrites', hstep⟩ := hlogged
              obtain ⟨h', hless⟩ := h.again hmay hround
              refine (ih h' (Nat.le_of_lt_succ (Nat.lt_of_lt_of_le hless hrounds))).imp ?_
              rintro _ s'' ⟨new', hwrites'', hfinishes⟩
              exact ⟨new ++ ([e] ++ new'), hwrites.trans (hwrites'.trans hwrites''), fun st hst =>
                (hrun _ (hst.cons r p _)).append (.cons (hstep st hst) (hfinishes st hst))⟩

/-! ### Application -/

/-- What the evaluation of a body keeps to inside the applications `active`, with what it writes. -/
def tracedContract (L : Reading (g.tracing input)) (active : List Call) :
    Contract (g.tracing input) active where
  Inv := L.Holds active
  Le s s' := Framed active s s' ∧ Logged g active s s'
  answers := L.Answered active
  Abort _ := True
  refl s := ⟨.refl s, .refl s⟩
  trans h h' := ⟨h.1.trans h'.1, h.2.trans h'.2⟩
  mono h := Answered.mono h.1
  bounded := answered_bounded active
  note {s event} htold h := by
    obtain ⟨hholds, hframe⟩ := note_holds h (tells_of_told htold)
    refine ⟨hholds, hframe, [], ⟨?_, rfl, rfl⟩, fun _ _ => .nil⟩
    cases event with
    | rule => exact htold.elim
    | tries | tried | atom => rfl
  furthest {s} f h := by
    obtain ⟨hholds, hframe⟩ := h.of_get? { s with furthest := f } (fun _ _ => rfl) h.log
    exact ⟨hholds, hframe, [], ⟨rfl, rfl, rfl⟩, fun _ _ => .nil⟩

theorem lt_of_mem_active (h : L.Holds active s) : ∀ c ∈ active, c.rule < g.rules.size := by
  intro c hc
  obtain ⟨e, he, -⟩ := (h.inProgress c.rule c.position).1 hc
  exact (h.inRange he).1

variable (hnames : g.Named)

include hnames in
theorem entered_logged (h : L.Holds active s) (hr : r < g.rules.size)
    (hnone : s.memo.get? p r = none) :
    ∃ e, Writes [e] s
      ((g.tracing input).entered active r p { s with memo := (s.memo.lookup p r).2 }) ∧
      ∀ st, Stacked g active st → Frame.Step st e (⟨g.ruleName r, p, none⟩ :: st) := by
  have hcounts : (s.memo.lookup p r).2.counts = (s.memo.hits, s.memo.misses + 1) := by
    rw [s.memo.counts_lookup, hnone]
    rfl
  refine ⟨⟨p, g.ruleName r, .enter, active.length + 1⟩,
    .one rfl ((Session.counts_enlist _ active r p).trans hcounts), fun st hst => ?_⟩
  rw [← hst.length]
  exact .enter (hst.not_isAt hnames (lt_of_mem_active h) hr (h.notMem_of_get?_eq_none hnone))

include hnames in
theorem replay_logged (h : L.Holds active s) (hr : r < g.rules.size) {entry : Entry}
    (hentry : s.memo.get? p r = some entry) :
    Logged g active s
      ((g.tracing input).replay active r p entry { s with memo := (s.memo.lookup p r).2 }).2 := by
  have hcounts : (s.memo.lookup p r).2.counts = (s.memo.hits + 1, s.memo.misses) := by
    rw [s.memo.counts_lookup, hentry]
    rfl
  have hreplayed : entry.isFinal = true → ∀ {s' : Session (List TraceEntry)},
      s'.log = ⟨p, g.ruleName r, .replayed, active.length + 1⟩ :: s.log →
      s'.memo.counts = (s.memo.hits + 1, s.memo.misses) → Logged g active s s' := by
    intro hfinal s' hlog hcounts
    refine ⟨_, .one hlog hcounts, fun st hst => .cons ?_ .nil⟩
    rw [← hst.length]
    refine .replayed (hst.not_isAt hnames (lt_of_mem_active h) hr fun hmem => ?_)
    obtain ⟨e, he, hopen⟩ := (h.inProgress r p).1 hmem
    cases hentry.symm.trans he
    cases hfinal.symm.trans hopen
  unfold Task.replay
  split
  · rename_i hstate
    exact hreplayed (by simp [Entry.isFinal, hstate]) rfl hcounts
  · rename_i hstate
    exact hreplayed (by simp [Entry.isFinal, hstate]) rfl hcounts
  · rename_i hmatched hfailed
    have hopen : entry.isFinal = false := by
      simp only [Entry.isFinal, decide_eq_false hmatched, decide_eq_false hfailed, Bool.or_false]
    have hmem := (h.inProgress r p).2 ⟨entry, hentry, hopen⟩
    refine ⟨[⟨p, g.ruleName r, .reentered, active.length + 1⟩],
      .one ?_ ((Session.counts_reenter _ active r p).trans hcounts), fun st hst => .cons ?_ .nil⟩
    · rw [Session.note, Session.log_reenter]
      rfl
    · obtain ⟨f, hf, hat⟩ := hst.exists_frame hmem
      rw [← hst.length]
      exact .reentered hf hat

include hnames in
/-- An application leaves the frames around it as they are, unless it is given up. -/
theorem apply_logged (hg : g.WellFormed) {room : Nat} :
    ∀ {active : List Call} {s : Session (List TraceEntry)} {r : RuleId} {p : Nat},
      L.Holds active s → L.Admits active r p →
      Meets (fun _ => True) (fun _ s' => Logged g active s s')
        ((g.tracing input).apply room active r p s) := by
  induction room with
  | zero => exact fun _ _ => ⟨rfl, trivial⟩
  | succ room ih =>
      intro active s r p h hadmits
      obtain ⟨hr, hp⟩ := L.inRange hadmits.1
      obtain ⟨hlook, -⟩ :=
        h.of_get? { s with memo := (s.memo.lookup p r).2 } (s.memo.get?_lookup p r) h.log
      have happly := @apply_meets _ _ L hg _ rfl (room + 1) _ _ _ _ h hadmits
      rw [Applied, Task.apply_succ] at happly
      rw [Task.apply_succ]
      cases he : s.memo.get? p r with
      | some e =>
          rw [he] at happly
          exact (Meets.of_error? happly fun _ => replay_logged hnames h hr he).imp_abort
            fun _ _ => trivial
      | none =>
          have hnone := (s.memo.get?_lookup p r p r).trans he
          have hfresh := h.notMem_of_get?_eq_none he
          obtain ⟨hgrowing, -, hrounds⟩ := growing_entered hlook hadmits hnone
          obtain ⟨e, hwrites, hstep⟩ := @entered_logged _ input _ _ _ _ _ hnames h hr he
          -- The body runs under the new frame, and what it applies has less room.
          have hbody : ∀ s, L.Holds (⟨r, p⟩ :: active) s → Meets (fun _ => True)
              (fun o s' => L.Holds (⟨r, p⟩ :: active) s' ∧
                (Framed (⟨r, p⟩ :: active) s s' ∧ Logged g (⟨r, p⟩ :: active) s s') ∧
                Body g (.ofInput input) (L.Answered (⟨r, p⟩ :: active) s') r p o)
              ((g.tracing input).body ((g.tracing input).apply room (⟨r, p⟩ :: active))
                (⟨r, p⟩ :: active) r p s) := by
            intro s hs
            refine Contract.body_meets (c := tracedContract L (⟨r, p⟩ :: active)) hg rfl hr hp hs
              fun s' r' q _ hinv hv => ?_
            have hadmits' := hadmits.visits hg rfl hfresh hinv hv
            refine ((apply_meets hg rfl hinv hadmits').and (ih hinv hadmits')).imp ?_
            exact fun _ _ h => ⟨h.1.1, ⟨h.1.2.1, h.2⟩, h.1.2.2⟩
          refine (grow_logged hadmits.1 hbody hgrowing (Nat.le_of_eq hrounds)).imp ?_
          rintro _ s' ⟨new, hwrites', hfinishes⟩
          have hstart : seedsOf ((g.tracing input).entered active r p
              { s with memo := (s.memo.lookup p r).2 }) ⟨r, p⟩ = none := seedsOf_insert ..
          rw [hstart] at hfinishes
          exact ⟨[e] ++ new, hwrites.trans hwrites', fun st hst =>
            .cons (hstep st hst) (hfinishes st hst)⟩

end Tracing

theorem attempt_logged {g : Grammar} (hg : g.WellFormed) (hnames : g.Named) {input : Input}
    {start : RuleId} (hstart : start < g.rules.size) (depth : Nat) :
    Meets (fun _ => True)
      (fun _ s => ∃ new, Writes new ⟨.empty, .here 0, []⟩ s ∧ Frame.Run [] new [])
      (attempt g input (.tracer g) [] start depth) := by
  let L := derivedReading hg (.tracer g) input (fun _ => True) fun _ => trivial
  have hadmits : L.Admits [] start 0 := ⟨⟨hstart, Nat.zero_le _⟩, List.forall_mem_nil _⟩
  have hstart := Reading.holds_start (.here 0) (show L.Log [] from trivial)
  refine (apply_logged hnames hg hstart hadmits).imp ?_
  rintro _ s ⟨new, hwrites, hrun⟩
  exact ⟨new, hwrites, hrun [] rfl⟩

/-! ### Parsing -/

namespace Parser

variable {parser : Parser} {input : Input}

/-- A trace is a nest of brackets, and the table has counted what is in it, unless a limit ends the
parse. -/
theorem parseTraced_wellBracketed {atoms : Array Atom} {rules : Array Rule} {root : RuleId}
    (hg : Grammar.ofParts atoms rules root = .ok parser.grammar)
    (hmode : ∀ mode, parser.grammar.mode? = some mode → mode = input.mode)
    (hlimit : ∀ e, (parser.parseTraced input).1 = .error e → e.isLimit = false) :
    WellBracketed (parser.parseTraced input).2.1 ∧
      (parser.parseTraced input).2.2.memo.misses =
        (parser.parseTraced input).2.1.countP (fun e => e.action = .enter) ∧
      (parser.parseTraced input).2.2.memo.hits =
        (parser.parseTraced input).2.1.countP fun e =>
          e.action = .replayed || e.action = .reentered := by
  obtain ⟨hassemble, -⟩ := Grammar.assemble_of_ofParts hg
  have hwf := Grammar.assemble_wellFormed hassemble
  have hnames : parser.grammar.Named := fun _ _ => Grammar.ruleName_inj hassemble
  rw [parseTraced_eq] at hlimit ⊢
  cases hrefusal : refusal parser.grammar parser.config input with
  | some e =>
      rw [run_refused hrefusal] at hlimit
      cases (hlimit e rfl).symm.trans (isLimit_of_refusal hmode hrefusal)
  | none =>
      rw [run_eq_attempt hrefusal] at hlimit ⊢
      have hmeets := @attempt_logged _ hwf hnames input _ hwf.root_lt parser.config.maxDepth
      cases herror : (attempt parser.grammar input (.tracer parser.grammar) [] parser.grammar.root
        parser.config.maxDepth).1.error? with
      | some e =>
          have hended := hlimit e (conclude_abort (Outcome.eq_abort_of_error? herror))
          cases hended.symm.trans (hmeets.isLimit_of_error? herror)
      | none =>
          obtain ⟨-, new, hwrites, hrun⟩ := hmeets.exists_of_error? herror
          have htrace : (attempt parser.grammar input
              (.tracer parser.grammar) [] parser.grammar.root
              parser.config.maxDepth).2.log.reverse = new := by
            rw [hwrites.log, List.append_nil, List.reverse_reverse]
          dsimp only
          rw [leave_memo, htrace, hwrites.hits, hwrites.misses]
          exact ⟨wellBracketed_of_run hrun, Nat.zero_add _, Nat.zero_add _⟩

/-- In `ayx` seeds grow twice inside of `crossed`, and two entries answer for good. -/
theorem parseTraced_wellBracketed_crossed :
    WellBracketed (roomy.parseTraced (.text "ayx")).2.1 ∧
      (roomy.parseTraced (.text "ayx")).2.2.memo.misses = 6 ∧
      (roomy.parseTraced (.text "ayx")).2.2.memo.hits = 8 := by
  have hlimit : ∀ e, (roomy.parseTraced (.text "ayx")).1 = .error e → e.isLimit = false := by
    rw [parseTraced_eq]
    exact noLimit_of_check (by decide +kernel)
  have hnested := @parseTraced_wellBracketed roomy (.text "ayx") _ _ _ ofParts_crossed
    (by decide) hlimit
  refine ⟨hnested.1, hnested.2.1.trans ?_, hnested.2.2.trans ?_⟩ <;> decide +kernel

end Parser

end Seedling
