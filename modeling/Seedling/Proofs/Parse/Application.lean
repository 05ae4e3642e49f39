import Mathlib.Logic.Function.Basic
import Seedling.Proofs.Parse.Evaluation
import Seedling.Proofs.Parse.Session

/-!
The application of rules. A reading of a parse claims something of the final answers and of the
seeds, such that a body evaluated with them gives a seed again, and the growth of a seed a final
answer. Then every application, from any session of the parse, ends with what the reading
claims, unless it runs out of room; and with room for all rules at all positions it never does.
-/

namespace Seedling

/-- What the rules answer inside the applications `active`, which have the seeds `σ`. -/
def Ledger.Says {ω : Type} (L : Ledger ω) (active : List Call)
    (σ : Call → Option Found) : Answers :=
  fun r p o => if ⟨r, p⟩ ∈ active then o = σ ⟨r, p⟩ else L.Final r p o

theorem Ledger.Says.imp {ω : Type} {L : Ledger ω} {P : Answers} {active : List Call}
    {σ : Call → Option Found} {r : RuleId} {p : Nat} {o : Option Found}
    (h : L.Says active σ r p o) (hfinal : ∀ r p o, L.Final r p o → P r p o)
    (hσ : ∀ c ∈ active, P c.rule c.position (σ c)) : P r p o := by
  rw [Says] at h
  split at h
  · rename_i hmem
    rw [h]
    exact hσ _ hmem
  · exact hfinal r p o h

theorem forall_mem_update {P : Answers} {active : List Call} {σ : Call → Option Found} {r : RuleId}
    {p : Nat} {seed : Option Found} (hσ : ∀ c ∈ active, P c.rule c.position (σ c))
    (hseed : P r p seed) :
    ∀ c ∈ (⟨r, p⟩ : Call) :: active,
      P c.rule c.position (Function.update σ ⟨r, p⟩ seed c) := by
  intro c hc
  by_cases hself : c = ⟨r, p⟩
  · rw [hself, Function.update_self]
    exact hseed
  · rw [Function.update_of_ne hself]
    exact hσ c ((List.mem_cons.1 hc).resolve_left hself)

/-- The stages of a rule that is applied inside `active`. -/
def Ledger.Stage {ω : Type} (L : Ledger ω) (task : Task ω) (active : List Call)
    (σ : Call → Option Found) (r : RuleId) (p : Nat) (seed o : Option Found) : Prop :=
  Body task.grammar task.subject (L.Says (⟨r, p⟩ :: active) (Function.update σ ⟨r, p⟩ seed)) r p o

def Task.entered {ω : Type} (task : Task ω) (active : List Call) (r : RuleId) (p : Nat)
    (s : Session ω) : Session ω :=
  Session.note { s.enlist active r p with
    memo := (s.enlist active r p).memo.insert p r .inProgress } task.observer (⟨r, p⟩ :: active)
    (.rule r p .enter)

theorem Task.apply_succ {ω : Type} (task : Task ω) (room : Nat) (active : List Call) (r : RuleId)
    (p : Nat) (s : Session ω) :
    task.apply (room + 1) active r p s =
      match s.memo.get? p r with
      | some e => task.replay active r p e { s with memo := (s.memo.lookup p r).2 }
      | none =>
          task.grow active r p
            (task.body (task.apply room (⟨r, p⟩ :: active)) (⟨r, p⟩ :: active) r p)
            (task.subject.length - p + 2)
            (task.entered active r p { s with memo := (s.memo.lookup p r).2 }) := by
  rw [Task.apply, ← MemoTable.lookup_fst]
  rfl

def Reading.seedsOf {ω : Type} (s : Session ω) (c : Call) : Option Found :=
  (s.memo.get? c.position c.rule).bind Entry.found?

/-- The table has a match of the rule, final or not, that stops there. -/
def MemoTable.Holds (m : MemoTable) (r : RuleId) (p stop : Nat) : Prop :=
  ∃ e f, m.get? p r = some e ∧ e.found? = some f ∧ f.stop = stop

theorem MemoTable.holds_insert (m : MemoTable) (r : RuleId) (p : Nat) (e : Entry)
    (state : MemoState)
    (found : Found) : (m.insert p r (e.store state found)).Holds r p found.stop :=
  ⟨_, found, m.get?_insert_self p r _, rfl, rfl⟩

/-- What an observer is told inside the applications `active`: a rule is applied only where it
may be, its matches and seeds are in the table, and how far an atom got is what it means with
the seeds that there are. -/
def Ledger.Tells {ω : Type} (L : Ledger ω) (task : Task ω) (May : List Call → RuleId → Nat → Prop)
    (active : List Call) (s : Session ω) : Event → Prop
  | .rule r p .enter => ∃ around, active = ⟨r, p⟩ :: around ∧ May around r p
  | .rule r p .replayed => May active r p ∧ ∃ e, s.memo.get? p r = some e ∧ e.isFinal = true
  | .rule r p .reentered => May active r p ∧ ⟨r, p⟩ ∈ active
  | .rule r p (.grow stop) => L.Met r p ∧ s.memo.Holds r p stop
  | .rule r p (.matched stop) => s.memo.Holds r p stop
  | .rule .. => True
  | event => event.Told task.grammar task.subject (L.Says active (Reading.seedsOf s))

/-- A ledger that holds of a parse. -/
structure Reading {ω : Type} (task : Task ω) extends Ledger ω where
  /-- The rules that may be applied at a position inside others. -/
  May : List Call → RuleId → Nat → Prop
  inRange : ∀ {active r p}, May active r p →
    r < task.grammar.rules.size ∧ p ≤ task.subject.length
  final_bounded : Final.Bounded task.subject.length
  seed_bounded : Seed.Bounded task.subject.length
  start : ∀ r p, Seed r p none
  met : ∀ {active r p}, May active r p → ⟨r, p⟩ ∈ active → Met r p
  visits : ∀ {active r p σ r' q}, May active r p → ⟨r, p⟩ ∉ active →
    (∀ c ∈ (⟨r, p⟩ : Call) :: active, Seed c.rule c.position (σ c)) →
    BodyVisits task.grammar task.subject (toLedger.Says (⟨r, p⟩ :: active) σ) r p r' q →
    May (⟨r, p⟩ :: active) r' q
  stage : ∀ {active r p σ o}, May active r p → ⟨r, p⟩ ∉ active →
    (∀ c ∈ (⟨r, p⟩ : Call) :: active, Seed c.rule c.position (σ c)) →
    Body task.grammar task.subject (toLedger.Says (⟨r, p⟩ :: active) σ) r p o → Seed r p o
  grown : ∀ {active r p σ o}, May active r p → ⟨r, p⟩ ∉ active →
    (∀ c ∈ active, Seed c.rule c.position (σ c)) →
    GrowsTo (toLedger.Stage task active σ r p) none o → Final r p o
  noted : ∀ {active s event}, Kept toLedger task.grammar task.subject.length active s →
    toLedger.Tells task May active s event →
    Log (task.observer.note active s.memo event s.log)

namespace Reading

variable {ω : Type} {task : Task ω} (L : Reading task)

abbrev Holds (active : List Call) (s : Session ω) : Prop :=
  Kept L.toLedger task.grammar task.subject.length active s

/-- What the rules have answered: their seeds, if they were met again, or for good. -/
def Answered (active : List Call) (s : Session ω) : Answers := fun r p o =>
  if ⟨r, p⟩ ∈ active then
    L.Seed r p o ∧ ∃ e, s.memo.get? p r = some e ∧ e.found? = o ∧ e.state = .reentered
  else L.Final r p o

/-- There is no room left beside the applications in progress. -/
def Crowded (task : Task ω) (room : Nat) (active : List Call) : Prop :=
  room + active.length ≤ task.grammar.rules.size * (task.subject.length + 1)

/-- Some rule may be applied inside that many others. -/
def Nests (depth : Nat) : Prop := ∃ active r p, L.May active r p ∧ active.length = depth

/-- There was no room left for a rule that may be applied, and what has been told so far is as the
reading claims. -/
def GivenUp (room : Nat) (active : List Call) (s : Session ω) : Prop :=
  Crowded task room active ∧ L.Nests (room + active.length) ∧ L.Log s.log

variable {L} {active : List Call} {s s' : Session ω} {r : RuleId} {p : Nat} {o : Option Found}

theorem seedsOf_eq {e : Entry} (h : s.memo.get? p r = some e) : seedsOf s ⟨r, p⟩ = e.found? := by
  rw [seedsOf, h]
  rfl

theorem seedsOf_insert (s : Session ω) (r : RuleId) (p : Nat) (e : Entry) :
    seedsOf { s with memo := s.memo.insert p r e } ⟨r, p⟩ = e.found? :=
  seedsOf_eq (MemoTable.get?_insert_self s.memo p r e)

theorem seed_seedsOf (h : L.Holds active s) {c : Call} (hc : c ∈ active) :
    L.Seed c.rule c.position (seedsOf s c) := by
  obtain ⟨e, he, hfinal⟩ := (h.inProgress c.rule c.position).1 hc
  rw [seedsOf_eq he]
  exact h.seeds he hfinal

theorem seedsOf_framed {inner : List Call} (h : L.Holds inner s) (hsub : active ⊆ inner)
    (hframe : Framed active s s') {c : Call} (hc : c ∈ active) : seedsOf s' c = seedsOf s c := by
  obtain ⟨e, he, -⟩ := (h.inProgress c.rule c.position).1 (hsub hc)
  obtain ⟨e', he', hfound, -⟩ := hframe c hc e he
  rw [seedsOf_eq he, seedsOf_eq he', hfound]

theorem Answered.says (h : L.Answered active s r p o) : L.Says active (seedsOf s) r p o := by
  rw [Ledger.Says]
  rw [Answered] at h
  split at h
  · rename_i hmem
    obtain ⟨-, e, he, rfl, -⟩ := h
    rw [if_pos hmem, seedsOf_eq he]
  · rename_i hmem
    rwa [if_neg hmem]

theorem Answered.mono (hframe : Framed active s s') (h : L.Answered active s r p o) :
    L.Answered active s' r p o := by
  rw [Answered] at h ⊢
  split at h
  · rename_i hmem
    obtain ⟨hseed, e, he, rfl, hstate⟩ := h
    obtain ⟨e', he', hfound, hre⟩ := hframe _ hmem e he
    rw [if_pos hmem]
    exact ⟨hseed, e', he', hfound, hre hstate⟩
  · rename_i hmem
    rwa [if_neg hmem]

theorem answered_bounded (active : List Call) (s : Session ω) :
    (L.Answered active s).Bounded task.subject.length := by
  intro r q f hq h
  rw [Answered] at h
  split at h
  · exact L.seed_bounded r q f hq h.1
  · exact L.final_bounded r q f hq h

theorem note_holds (h : L.Holds active s) {event : Event}
    (htells : L.Tells task L.May active s event) :
    L.Holds active (s.note task.observer active event) ∧
      Framed active s (s.note task.observer active event) :=
  h.of_get? _ (fun _ _ => rfl) (L.noted h htells)

theorem tells_of_told {event : Event}
    (h : event.Told task.grammar task.subject (L.Answered active s)) :
    L.Tells task L.May active s event := by
  cases event with
  | rule => exact h.elim
  | tries | tried => trivial
  | atom id p stop =>
      obtain ⟨hp, x, hx, hstop⟩ := h
      exact ⟨hp, x, hx.mono fun _ _ _ => Answered.says, hstop⟩

/-- What the evaluation of a body keeps to inside the applications `active`. -/
def contract (L : Reading task) (room : Nat) (active : List Call) : Contract task active where
  Inv := L.Holds active
  Le := Framed active
  answers := L.Answered active
  Abort := L.GivenUp room active
  refl := Framed.refl
  trans := Framed.trans
  mono := Answered.mono
  bounded := answered_bounded active
  note htold h := note_holds h (tells_of_told htold)
  furthest _ h := h.of_get? _ (fun _ _ => rfl) h.log

/-! ### Growth -/

/-- How many rounds a rule takes at most before its seed, if any, no longer grows. -/
def growthBound (length p : Nat) : Option Found → Nat
  | none => length - p + 2
  | some f => length - f.stop + 1

theorem growthBound_lt {length p : Nat} {seed : Option Found} {f : Found}
    (h : Outgrows seed (some f)) (hle : p ≤ f.stop) (hlen : f.stop ≤ length) :
    growthBound length p (some f) < growthBound length p seed := by
  obtain ⟨f', hf', hlt⟩ := h
  cases hf'
  cases seed with
  | none =>
      rw [growthBound, growthBound]
      omega
  | some f₀ =>
      have := hlt f₀ rfl
      rw [growthBound, growthBound]
      omega

theorem growthBound_pos (length p : Nat) (seed : Option Found) : 0 < growthBound length p seed := by
  cases seed <;> rw [growthBound] <;> omega

section Growth

variable {σ : Call → Option Found}

/-- The stage that a session has come to. It is the one after its seed, or after any other if
the rule was not met again. -/
theorem stage_of_answered (hσ : ∀ c ∈ active, seedsOf s c = σ c) {seed : Option Found}
    (hseed : ∀ e, s.memo.get? p r = some e → e.state = .reentered → seed = e.found?)
    (hbody : Body task.grammar task.subject (L.Answered (⟨r, p⟩ :: active) s) r p o) :
    L.Stage task active σ r p seed o := by
  refine hbody.mono fun r' q o' ha => ?_
  rw [Ledger.Says]
  rw [Answered] at ha
  split at ha
  · rename_i hmem
    obtain ⟨-, e, he, rfl, hstate⟩ := ha
    rw [if_pos hmem]
    by_cases hself : (⟨r', q⟩ : Call) = ⟨r, p⟩
    · cases hself
      rw [Function.update_self, hseed e he hstate]
    · rw [Function.update_of_ne hself, ← hσ _ ((List.mem_cons.1 hmem).resolve_left hself),
        seedsOf_eq he]
  · rename_i hmem
    rwa [if_neg hmem]

/-- A rule is in progress inside `active`, which have the seeds `σ`. What it would grow to from
the seed it has is what the reading claims of it. -/
structure Growing (L : Reading task) (active : List Call) (σ : Call → Option Found) (r : RuleId)
    (p : Nat) (s : Session ω) : Prop where
  holds : L.Holds (⟨r, p⟩ :: active) s
  seeds : ∀ c ∈ active, seedsOf s c = σ c
  final : ∀ o, GrowsTo (L.Stage task active σ r p) (seedsOf s ⟨r, p⟩) o → L.Final r p o

/-- What a round comes to: an answer for good, or a longer seed. -/
def RoundMeets (L : Reading task) (active : List Call) (σ : Call → Option Found) (r : RuleId)
    (p : Nat) (abort : Session ω → Prop) (s : Session ω) : Task.Round ω → Prop
  | .done outcome s' => Meets abort
      (fun o s' => L.Holds active s' ∧ Framed active s s' ∧ L.Final r p o) (outcome, s')
  | .again s' => L.Holds (⟨r, p⟩ :: active) s' ∧ Framed active s s' ∧
      L.Stage task active σ r p (seedsOf s ⟨r, p⟩) (seedsOf s' ⟨r, p⟩) ∧
      Outgrows (seedsOf s ⟨r, p⟩) (seedsOf s' ⟨r, p⟩)

theorem put_meets (entry : Entry) (action : Action) (h : L.Holds (⟨r, p⟩ :: active) s)
    (hentry : entry.Settled)
    (haction : L.Tells task L.May active { s with memo := s.memo.insert p r entry }
      (.rule r p action))
    (hfinal : L.Final r p entry.found?) :
    L.Holds active (task.put active r p entry action s) ∧
      Framed active s (task.put active r p entry action s) := by
  have hput := note_holds (h.finish hentry hfinal) haction
  exact ⟨hput.1, (framed_insert (List.nodup_cons.1 h.nodup).1 entry).trans hput.2⟩

theorem accept_meets {entry : Entry} {f : Found} {abort : Session ω → Prop}
    (h : L.Holds (⟨r, p⟩ :: active) s) (hfinal : L.Final r p (some f)) :
    RoundMeets L active σ r p abort s (task.accept active r p entry f s) := by
  have hentry : (entry.store .matched f).Settled := .inl ⟨rfl, rfl⟩
  obtain ⟨hholds, hframe⟩ := put_meets _ (.matched f.stop) h hentry
    (s.memo.holds_insert r p entry .matched f) hfinal
  exact ⟨hholds, hframe, hfinal⟩

theorem plant_meets {entry : Entry} {f : Found} {abort : Session ω → Prop}
    (h : L.Holds (⟨r, p⟩ :: active) s) (hentry : s.memo.get? p r = some entry)
    (hmet : L.Met r p) (hseed : L.Seed r p (some f))
    (hstage : L.Stage task active σ r p (seedsOf s ⟨r, p⟩) (some f))
    (hout : Outgrows (seedsOf s ⟨r, p⟩) (some f)) :
    RoundMeets L active σ r p abort s (task.plant active r p entry f s) := by
  have hself : (⟨r, p⟩ : Call) ∈ (⟨r, p⟩ : Call) :: active := List.mem_cons_self
  have hfresh := (List.nodup_cons.1 h.nodup).1
  obtain ⟨hdrop, hget⟩ := h.dropAll (p := p) entry.dependents
    fun d hd => h.dependents [] rfl hentry d hd
  have hseeded := hdrop.reseed (entry.store .seeded f) hself
    ((hget _ hself).trans hentry) rfl rfl hseed hmet
  obtain ⟨hnoted, -⟩ := note_holds hseeded
    (show L.Tells task L.May _ _ (.rule r p (.grow f.stop)) from
      ⟨hmet, MemoTable.holds_insert _ r p entry .seeded f⟩)
  have hgrown := hnoted.reseed (e := entry.store .seeded f) (entry.store .inProgress f)
    hself (MemoTable.get?_insert_self ..) rfl rfl hseed hmet
  refine ⟨hgrown, ?_, (seedsOf_insert ..).symm ▸ hstage, (seedsOf_insert ..).symm ▸ hout⟩
  have hdropped : Framed active s
      { s with memo := entry.dependents.foldl (fun memo d => memo.remove p d) s.memo } :=
    .of_get? fun c hc => hget c (List.mem_cons_of_mem _ hc)
  exact hdropped.trans ((framed_insert hfresh _).trans (framed_insert hfresh _))

theorem RoundMeets.of_framed {abort : Session ω → Prop} {round : Task.Round ω}
    (h : RoundMeets L active σ r p abort s' round) (hs : L.Holds (⟨r, p⟩ :: active) s)
    (hframe : Framed (⟨r, p⟩ :: active) s s') : RoundMeets L active σ r p abort s round := by
  have hframe' := hframe.sublist fun c => List.mem_cons_of_mem _
  cases round with
  | done outcome s'' =>
      rw [RoundMeets] at h ⊢
      exact h.imp fun _ _ ⟨hholds, hle, hfinal⟩ => ⟨hholds, hframe'.trans hle, hfinal⟩
  | again s'' =>
      obtain ⟨hholds, hle, hstage, hout⟩ := h
      rw [seedsOf_framed hs (List.Subset.refl _) hframe List.mem_cons_self] at hstage hout
      exact ⟨hholds, hframe'.trans hle, hstage, hout⟩

variable (hmay : L.May active r p) (h : L.Growing active σ r p s)

include h in
theorem settle_backtrack_meets {abort : Session ω → Prop} {f : Failure}
    (hbody : Body task.grammar task.subject (L.Answered (⟨r, p⟩ :: active) s) r p none) :
    RoundMeets L active σ r p abort s (task.settle active r p (.backtrack f, s)) := by
  obtain ⟨e, he, -⟩ := (h.holds.inProgress r p).1 List.mem_cons_self
  -- A failure does not outgrow the seed, so growth ends with the seed that there is.
  have hkeep := h.final _ (.settled
    (stage_of_answered h.seeds (fun _ he' _ => seedsOf_eq he') hbody) fun ⟨_, hf, _⟩ => nomatch hf)
  rw [seedsOf_eq he] at hkeep
  unfold Task.settle
  dsimp only
  rw [he]
  dsimp only
  split
  · rename_i seed hfound
    exact accept_meets h.holds (hfound ▸ hkeep)
  · rename_i hfound
    have hput := put_meets { e with state := .failed, failure := some f } .failed h.holds
      (.inr ⟨rfl, hfound, rfl⟩) trivial hkeep
    exact ⟨hput.1, hput.2, hfound ▸ hkeep⟩

include hmay h in
/-- A body that matches is the next seed if it is longer than the last one, or else ends the
growth. -/
theorem settle_ok_meets {abort : Session ω → Prop} {f : Found}
    (hbody : Body task.grammar task.subject (L.Answered (⟨r, p⟩ :: active) s) r p (some f)) :
    RoundMeets L active σ r p abort s (task.settle active r p (.ok f, s)) := by
  obtain ⟨e, he, hopen⟩ := (h.holds.inProgress r p).1 List.mem_cons_self
  have hstage := stage_of_answered h.seeds (fun _ he' _ => seedsOf_eq he') hbody
  have hseed : L.Seed r p (some f) :=
    L.stage hmay (List.nodup_cons.1 h.holds.nodup).1 (fun _ hc => seed_seedsOf h.holds hc)
      (hbody.mono fun _ _ _ => Answered.says)
  have hnone : e.found? = none → Outgrows (seedsOf s ⟨r, p⟩) (some f) := fun hfound =>
    ⟨f, rfl, fun f₀ hf₀ => nomatch (hf₀.symm.trans (seedsOf_eq he)).trans hfound⟩
  unfold Task.settle
  dsimp only
  rw [he]
  dsimp only
  split
  · rename_i hgrowing
    have hmet := h.holds.met he hopen hgrowing
    split
    · rename_i seed hfound
      have hold : seedsOf s ⟨r, p⟩ = some seed := (seedsOf_eq he).trans hfound
      split
      · rename_i hle
        refine accept_meets h.holds (hold ▸ h.final _ (.settled hstage ?_))
        rintro ⟨f', hf', hlt⟩
        cases hf'
        exact Nat.not_lt_of_le hle (hlt seed hold)
      · rename_i hgt
        refine plant_meets h.holds he hmet hseed hstage ⟨f, rfl, fun f₀ hf₀ => ?_⟩
        cases hold.symm.trans hf₀
        exact Nat.lt_of_not_le hgt
    · rename_i hfound
      exact plant_meets h.holds he hmet hseed hstage (hnone hfound)
  · -- The rule was not met again: its body would give the same with the match for a seed.
    rename_i hgrowing
    rw [Entry.isGrowing, Bool.or_eq_true, not_or, decide_eq_true_eq] at hgrowing
    have hfound : e.found? = none := by
      rw [Entry.found?, Option.map_eq_none_iff]
      simpa [Entry.hasSeed] using hgrowing.2
    have hagain : L.Stage task active σ r p (some f) (some f) := by
      refine stage_of_answered h.seeds (fun e' he' hstate => ?_) hbody
      cases he.symm.trans he'
      exact absurd hstate hgrowing.1
    refine accept_meets h.holds (h.final _ (.grown hstage (hnone hfound) (.settled hagain ?_)))
    rintro ⟨f', hf', hlt⟩
    cases hf'
    exact Nat.lt_irrefl _ (hlt f rfl)

include h in
/-- The evaluation of a body leaves the seeds of the applications as they were, its own rule's among
them. -/
theorem Growing.of_framed (h' : L.Holds (⟨r, p⟩ :: active) s')
    (hframe : Framed (⟨r, p⟩ :: active) s s') : L.Growing active σ r p s' where
  holds := h'
  seeds c hc := by
    rw [seedsOf_framed h.holds (List.Subset.refl _) hframe (List.mem_cons_of_mem _ hc),
      h.seeds c hc]
  final := by
    rw [seedsOf_framed h.holds (List.Subset.refl _) hframe List.mem_cons_self]
    exact h.final

include hmay h in
/-- After its body a rule is settled, or it has a longer seed. -/
theorem settle_meets {abort : Session ω → Prop} {result : Outcome Found × Session ω}
    (hresult : Meets abort
      (fun o s' => L.Holds (⟨r, p⟩ :: active) s' ∧ Framed (⟨r, p⟩ :: active) s s' ∧
        Body task.grammar task.subject (L.Answered (⟨r, p⟩ :: active) s') r p o) result) :
    RoundMeets L active σ r p abort s (task.settle active r p result) := by
  obtain ⟨attempt, s'⟩ := result
  cases attempt with
  | abort e =>
      unfold Task.settle
      dsimp only
      cases s'.memo.get? p r <;> exact hresult
  | backtrack f =>
      obtain ⟨h', hframe, hbody⟩ := hresult
      exact (settle_backtrack_meets (h.of_framed h' hframe) hbody).of_framed h.holds hframe
  | ok f =>
      obtain ⟨h', hframe, hbody⟩ := hresult
      exact (settle_ok_meets hmay (h.of_framed h' hframe) hbody).of_framed h.holds hframe

include hmay h in
/-- A round that leaves a longer seed leaves fewer rounds to go. -/
theorem Growing.again {abort : Session ω → Prop}
    (hround : RoundMeets L active σ r p abort s (.again s')) :
    L.Growing active σ r p s' ∧ growthBound task.subject.length p (seedsOf s' ⟨r, p⟩) <
      growthBound task.subject.length p (seedsOf s ⟨r, p⟩) := by
  obtain ⟨h', hframe, hstage, hout⟩ := hround
  have hseeds : ∀ c ∈ active, seedsOf s' c = σ c := fun c hc =>
    (seedsOf_framed h.holds (List.subset_cons_self _ _) hframe hc).trans (h.seeds c hc)
  refine ⟨⟨h', hseeds, fun o hgrow => h.final o (.grown hstage hout hgrow)⟩, ?_⟩
  obtain ⟨f, hf, -⟩ := id hout
  have hbound := L.seed_bounded r p f (L.inRange hmay).2
    (hf ▸ seed_seedsOf h' List.mem_cons_self)
  rw [hf] at hout ⊢
  exact growthBound_lt hout hbound.1 hbound.2

end Growth

/-- A rule grows to a final answer if each evaluation of its body keeps to the contract. Each
round with a longer seed leaves fewer rounds to go, so that they are never used up. -/
theorem grow_meets {abort : Session ω → Prop} {body : Session ω → Outcome Found × Session ω}
    {σ : Call → Option Found} (hmay : L.May active r p)
    (hbody : ∀ s, L.Holds (⟨r, p⟩ :: active) s → Meets abort
      (fun o s' => L.Holds (⟨r, p⟩ :: active) s' ∧ Framed (⟨r, p⟩ :: active) s s' ∧
        Body task.grammar task.subject (L.Answered (⟨r, p⟩ :: active) s') r p o) (body s))
    {rounds : Nat} {s : Session ω} (h : L.Growing active σ r p s)
    (hrounds : growthBound task.subject.length p (seedsOf s ⟨r, p⟩) ≤ rounds) :
    Meets abort (fun o s' => L.Holds active s' ∧ Framed active s s' ∧ L.Final r p o)
      (task.grow active r p body rounds s) := by
  induction rounds generalizing s with
  | zero =>
      -- A seed always has a round to go.
      exact absurd (Nat.lt_of_lt_of_le (growthBound_pos _ _ _) hrounds) (Nat.lt_irrefl 0)
  | succ rounds ih =>
      have hround := settle_meets hmay h (hbody s h.holds)
      rw [Task.grow]
      cases hsettle : task.settle active r p (body s) with
      | done outcome s' =>
          rw [hsettle] at hround
          exact hround
      | again s' =>
          rw [hsettle] at hround
          obtain ⟨h', hless⟩ := h.again hmay hround
          exact (ih h' (Nat.le_of_lt_succ (Nat.lt_of_lt_of_le hless hrounds))).imp
            fun _ _ ⟨hholds, hle, hend⟩ => ⟨hholds, hround.2.1.trans hle, hend⟩

/-! ### Application -/

def Applied (L : Reading task) (room : Nat) (active : List Call) (s : Session ω) (r : RuleId)
    (p : Nat) : Outcome Found × Session ω → Prop :=
  Meets (L.GivenUp room active) fun o s' =>
    L.Holds active s' ∧ Framed active s s' ∧ L.Answered active s' r p o

theorem replay_meets {room : Nat} {e : Entry} (hmay : L.May active r p) (h : L.Holds active s)
    (he : s.memo.get? p r = some e) :
    L.Applied room active s r p (task.replay active r p e s) := by
  by_cases hfinal : e.isFinal = true
  · -- A rule with a final entry is not in progress, and its answer is for good.
    obtain ⟨hsettled, hanswer⟩ := h.settled he hfinal
    have hnot : (⟨r, p⟩ : Call) ∉ active := by
      rw [h.inProgress]
      rintro ⟨e', he', hopen⟩
      cases he.symm.trans he'
      cases hfinal.symm.trans hopen
    obtain ⟨hholds, hframe⟩ := note_holds h
      (show L.Tells task L.May active s (.rule r p .replayed) from ⟨hmay, e, he, hfinal⟩)
    rcases hsettled with ⟨hstate, hsome⟩ | ⟨hstate, hnone, -⟩
    · obtain ⟨f, hf⟩ := Option.isSome_iff_exists.1 hsome
      rw [Task.replay, hstate]
      dsimp only
      rw [Task.seedOr, hf]
      refine ⟨hholds, hframe, ?_⟩
      rw [Answered, if_neg hnot, ← hf]
      exact hanswer
    · rw [Task.replay, hstate]
      refine ⟨hholds, hframe, ?_⟩
      rw [Answered, if_neg hnot, ← hnone]
      exact hanswer
  · -- The rule is in progress: it answers with its seed and is marked as met again.
    have hopen := Bool.eq_false_iff.2 hfinal
    have hactive := (h.inProgress r p).2 ⟨e, he, hopen⟩
    have hseed := h.seeds he hopen
    obtain ⟨hre, hframe, hmark⟩ := h.reenter hactive (L.met hmay hactive)
    obtain ⟨e', he', hfound, hstate⟩ := hmark e he
    obtain ⟨hholds, hframe'⟩ := note_holds hre
      (show L.Tells task L.May active _ (.rule r p .reentered) from ⟨hmay, hactive⟩)
    have hanswer : L.Answered active
        ((s.reenter active r p).note task.observer active (.rule r p .reentered)) r p e.found? := by
      rw [Answered, if_pos hactive]
      exact ⟨hseed, e', he', hfound, hstate⟩
    have hreplay : task.replay active r p e s = (Task.seedOr (.here p) e,
        (s.reenter active r p).note task.observer active (.rule r p .reentered)) := by
      rw [Task.replay]
      split
      · rename_i hmatched
        simp [Entry.isFinal, hmatched] at hopen
      · rename_i hfailed
        simp [Entry.isFinal, hfailed] at hopen
      · rfl
    rw [hreplay, Task.seedOr]
    split
    · rename_i f hf
      exact ⟨hholds, hframe.trans hframe', hf ▸ hanswer⟩
    · rename_i hf
      exact ⟨hholds, hframe.trans hframe', hf ▸ hanswer⟩

theorem givenUp_cons (L : Reading task) (room : Nat) (c : Call) (active : List Call) :
    L.GivenUp room (c :: active) = L.GivenUp (room + 1) active := by
  funext s
  have hlength : room + (c :: active).length = room + 1 + active.length := by
    rw [List.length_cons, Nat.add_assoc, Nat.add_comm active.length]
  rw [GivenUp, GivenUp, Crowded, Crowded, hlength]

/-- The rule may be applied inside others, none of which is further on. -/
def Admits (L : Reading task) (active : List Call) (r : RuleId) (p : Nat) : Prop :=
  L.May active r p ∧ ∀ c ∈ active, c.position ≤ p

theorem growing_entered (h : L.Holds active s) (hadmits : L.Admits active r p)
    (hnone : s.memo.get? p r = none) :
    L.Growing active (seedsOf (task.entered active r p s)) r p (task.entered active r p s) ∧
      Framed active s (task.entered active r p s) ∧
      growthBound task.subject.length p (seedsOf (task.entered active r p s) ⟨r, p⟩) =
        task.subject.length - p + 2 := by
  obtain ⟨hmay, hbehind⟩ := hadmits
  obtain ⟨hr, hp⟩ := L.inRange hmay
  have hfresh := h.notMem_of_get?_eq_none hnone
  obtain ⟨henlisted, hframe⟩ := h.enlist hnone
  have hentered := henlisted.enter ((marked_enlist s active r p p r).1 hnone) hr hp hbehind
    (L.start r p)
  obtain ⟨hholds, -⟩ := note_holds hentered
    (show L.Tells task L.May _ _ (.rule r p .enter) from ⟨active, rfl, hmay⟩)
  have hstart : seedsOf (task.entered active r p s) ⟨r, p⟩ = none :=
    seedsOf_insert (s.enlist active r p) r p .inProgress
  refine ⟨⟨hholds, fun _ _ => rfl, fun o hgrow => ?_⟩, hframe.trans (framed_insert hfresh _), ?_⟩
  · rw [hstart] at hgrow
    exact L.grown hmay hfresh (fun c hc => seed_seedsOf hholds (List.mem_cons_of_mem _ hc)) hgrow
  · rw [hstart]
    rfl

section Bodies

variable (hg : task.grammar.WellFormed) {input : Input} (hsubject : task.subject = .ofInput input)
  (hadmits : L.Admits active r p) (hfresh : ⟨r, p⟩ ∉ active)

include hg hsubject hadmits hfresh in
theorem Admits.visits {r' : RuleId} {q : Nat} (h : L.Holds (⟨r, p⟩ :: active) s)
    (hv : BodyVisits task.grammar task.subject (L.Answered (⟨r, p⟩ :: active) s) r p r' q) :
    L.Admits (⟨r, p⟩ :: active) r' q := by
  obtain ⟨hmay, hbehind⟩ := hadmits
  obtain ⟨rule, hrule, hv⟩ := hv
  have hle : p ≤ q := by
    have hp := (L.inRange hmay).2
    have hbounded := answered_bounded (L := L) (⟨r, p⟩ :: active) s
    rw [hsubject, Subject.length_ofInput] at hbounded hp
    rw [hsubject] at hv
    exact (hv.bounds hg hbounded hp).1
  refine ⟨?_, fun c hc => ?_⟩
  · -- What is visited given the answers so far is visited given the seeds.
    exact L.visits hmay hfresh (fun _ hc => seed_seedsOf h hc)
      ⟨rule, hrule, hv.mono fun _ _ _ => Answered.says⟩
  · rcases List.mem_cons.1 hc with rfl | hc
    · exact hle
    · exact Nat.le_trans (hbehind c hc) hle

include hg hsubject hadmits hfresh in
theorem body_meets {room : Nat} {apply : Apply ω}
    (happly : ∀ {s r' q}, L.Holds (⟨r, p⟩ :: active) s → L.Admits (⟨r, p⟩ :: active) r' q →
      L.Applied room (⟨r, p⟩ :: active) s r' q (apply r' q s))
    (s : Session ω) (h : L.Holds (⟨r, p⟩ :: active) s) :
    Meets (L.GivenUp (room + 1) active)
      (fun o s' => L.Holds (⟨r, p⟩ :: active) s' ∧ Framed (⟨r, p⟩ :: active) s s' ∧
        Body task.grammar task.subject (L.Answered (⟨r, p⟩ :: active) s') r p o)
      (task.body apply (⟨r, p⟩ :: active) r p s) := by
  obtain ⟨hr, hp⟩ := L.inRange hadmits.1
  rw [← givenUp_cons L room ⟨r, p⟩ active]
  exact Contract.body_meets (c := L.contract room (⟨r, p⟩ :: active)) hg hsubject hr hp h
    fun s' r' q _ hinv hv => happly hinv (hadmits.visits hg hsubject hfresh hinv hv)

end Bodies

/-- A rule that may be applied is answered as the reading claims, whatever the session. -/
theorem apply_meets (hg : task.grammar.WellFormed) {input : Input}
    (hsubject : task.subject = .ofInput input) {room : Nat} :
    ∀ {active : List Call} {s : Session ω} {r : RuleId} {p : Nat}, L.Holds active s →
      L.Admits active r p → L.Applied room active s r p (task.apply room active r p s) := by
  induction room with
  | zero =>
      -- The applications in progress are different calls, and there is no room for one more.
      intro active s r p h hadmits
      refine ⟨rfl, ?_, ⟨active, r, p, hadmits.1, (Nat.zero_add _).symm⟩, h.log⟩
      rw [Crowded, Nat.zero_add]
      exact h.length_active_le
  | succ room ih =>
      intro active s r p h hadmits
      obtain ⟨hlook, hframe⟩ := h.of_get? { s with memo := (s.memo.lookup p r).2 }
        (s.memo.get?_lookup p r) h.log
      rw [Task.apply_succ]
      cases he : s.memo.get? p r with
      | some e =>
          refine (replay_meets hadmits.1 hlook ((s.memo.get?_lookup p r p r).trans he)).imp ?_
          exact fun _ _ ⟨hholds, hle, hanswer⟩ => ⟨hholds, hframe.trans hle, hanswer⟩
      | none =>
          have hnone := (s.memo.get?_lookup p r p r).trans he
          have hfresh := h.notMem_of_get?_eq_none he
          obtain ⟨hgrowing, hframe', hrounds⟩ := growing_entered hlook hadmits hnone
          refine (grow_meets hadmits.1 (body_meets hg hsubject hadmits hfresh ih) hgrowing
            (Nat.le_of_eq hrounds)).imp fun o s' ⟨hholds, hle, hfinal⟩ =>
              ⟨hholds, (hframe.trans hframe').trans hle, ?_⟩
          rw [Answered, if_neg hfresh]
          exact hfinal

theorem holds_start (f : Failure) {log : ω} (hlog : L.Log log) : L.Holds [] ⟨.empty, f, log⟩ where
  nodup := List.nodup_nil
  ascending := .nil
  inRange he := by simp [MemoTable.get?_empty] at he
  inProgress r p := by simp [MemoTable.get?_empty]
  settled he := by simp [MemoTable.get?_empty] at he
  seeds he := by simp [MemoTable.get?_empty] at he
  met he := by simp [MemoTable.get?_empty] at he
  dependents above _ _ _ hsplit := by simp at hsplit
  log := hlog

/-- With nothing around it a rule is answered for good. -/
theorem apply_nil_answers (hg : task.grammar.WellFormed) {input : Input}
    (hsubject : task.subject = .ofInput input) (room : Nat) (f : Failure) {log : ω}
    (hlog : L.Log log) (hmay : L.May [] r p) :
    Meets (L.GivenUp room []) (fun o s => L.Final r p o ∧ L.Log s.log)
      (task.apply room [] r p ⟨.empty, f, log⟩) :=
  Meets.imp (apply_meets hg hsubject (holds_start f hlog)
      ⟨hmay, fun _ hc => absurd hc List.not_mem_nil⟩) fun o s ⟨hholds, _, hanswer⟩ =>
    ⟨by rwa [Answered, if_neg List.not_mem_nil] at hanswer, hholds.log⟩

theorem apply_nil_meets (hg : task.grammar.WellFormed) {input : Input}
    (hsubject : task.subject = .ofInput input) (room : Nat) (f : Failure) {log : ω}
    (hlog : L.Log log) (hmay : L.May [] r p) :
    Meets (fun s => room ≤ task.grammar.rules.size * (task.subject.length + 1) ∧ L.Log s.log)
      (fun o s => L.Final r p o ∧ L.Log s.log) (task.apply room [] r p ⟨.empty, f, log⟩) :=
  (apply_nil_answers hg hsubject room f hlog hmay).imp_abort fun _ h => ⟨h.1, h.2.2⟩

end Reading

end Seedling
