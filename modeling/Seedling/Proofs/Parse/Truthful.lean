import Seedling.Proofs.Grammar.Building
import Seedling.Proofs.Parse.Failure
import Seedling.Proofs.Parse.Report
import Seedling.Proofs.Parse.Termination
import Seedling.Proofs.Source.Lines

/-!
What an error reports is true: every label it lists belongs to a terminal that does not stand in
the input where the error is.

A failure is truthful when it is made, since a terminal makes it where it has just been tried, and
two truthful failures combine to one, since labels are only joined at the same position. So it is
enough that every session of a parse keeps to truthful failures, in the memo table as well.
-/

namespace Seedling

theorem Grammar.Compiled.not_stands {g : Grammar} (hg : g.Compiled) {input : Input} {id : AtomId}
    {p : Nat} (h : (Subject.ofInput input).matchTerminal g id p = none) (stop : Nat)
    (leaf : ParseTree) : ¬ Stands g input id p stop leaf := by
  intro hstands
  cases hstands with
  | @literal t s _ _ _ hatom _ _ hslice =>
      have hprefix : Text.bytes s <+: (Text.bytes t).drop p := by
        rw [← hslice, Source.slice, List.drop_take]
        exact List.take_prefix _ _
      simp only [Subject.ofInput, Subject.matchTerminal, hatom] at h
      rw [if_pos (List.isPrefixOf_iff_prefix.2 hprefix)] at h
      contradiction
  | @pattern t pattern r _ _ _ hatom hparse hle hlen hslice =>
      have hmatcher : g.matcher? id = some r.recognizer := by
        rw [hg.compiled hatom, patternMatcher, hparse]
      have hlongest := r.longestMatch_isGreatest (Nat.le_trans hle hlen)
      simp only [Subject.ofInput, Subject.matchTerminal, hatom, hmatcher, Option.bind_eq_bind,
        Option.bind_some] at h
      cases hmatch : r.recognizer.longestMatch (Text.bytes t) p with
      | ok m =>
          rw [hmatch] at h
          contradiction
      | error i =>
          rw [hmatch] at hlongest
          exact (Set.eq_empty_iff_forall_notMem.1 hlongest) stop ⟨hle, hlen, hslice⟩
  | @token ts name token _ _ hatom htoken hname =>
      have htoken' : ts.toArray[p]? = some token := by simpa using htoken
      simp only [Subject.ofInput, Subject.matchTerminal, hatom, htoken', Option.bind_eq_bind,
        Option.bind_some, if_pos hname] at h
      contradiction

/-- A failure inside the input that expects only terminals which do not match there. -/
structure Failure.Truthful (g : Grammar) (subject : Subject) (f : Failure) : Prop where
  position_le : f.position ≤ subject.length
  expected : ∀ label ∈ f.expected, ∃ id atom, g.atoms[id]? = some atom ∧ atom.label? = some label ∧
    subject.matchTerminal g id f.position = none

/-- A match inside the input, or a truthful failure. -/
structure Entry.Truthful (g : Grammar) (subject : Subject) (e : Entry) : Prop where
  stop_le : ∀ f, e.found? = some f → f.stop ≤ subject.length
  failure : ∀ f, e.failure = some f → f.Truthful g subject

structure Session.Truthful {ω : Type} (g : Grammar) (subject : Subject) (s : Session ω) : Prop where
  furthest : s.furthest.Truthful g subject
  entries : ∀ {p r e}, s.memo.get? p r = some e → e.Truthful g subject

variable {ω : Type} {g : Grammar} {subject : Subject}

namespace Failure

theorem truthful_here {p : Nat} (hp : p ≤ subject.length) : (here p).Truthful g subject :=
  ⟨hp, fun _ h => absurd h (SortedSet.not_mem_empty _)⟩

theorem truthful_expecting {id : AtomId} {atom : Atom} {p : Nat} (hp : p ≤ subject.length)
    (hatom : g.atoms[id]? = some atom) (hlabel : atom.label?.isSome = true)
    (h : subject.matchTerminal g id p = none) : (expecting p (g.label id)).Truthful g subject := by
  refine ⟨hp, fun label hmem => ⟨id, atom, hatom, ?_, h⟩⟩
  obtain ⟨name, hname⟩ := Option.isSome_iff_exists.1 hlabel
  rw [SortedSet.mem_singleton.1 hmem, Grammar.label, hatom, Option.bind_some, hname]
  rfl

theorem Truthful.combine {f f' : Failure} (h : f.Truthful g subject) (h' : f'.Truthful g subject) :
    (f.combine f').Truthful g subject := by
  have hposition := position_combine f f'
  refine ⟨by have := h.position_le; have := h'.position_le; omega, fun label hmem => ?_⟩
  rcases mem_expected_combine.1 hmem with ⟨hle, hlabel⟩ | ⟨hle, hlabel⟩
  · rw [hposition, Nat.max_eq_left hle]
    exact h.expected label hlabel
  · rw [hposition, Nat.max_eq_right hle]
    exact h'.expected label hlabel

end Failure

namespace Session.Truthful

variable {s : Session ω} {r : RuleId} {p : Nat}

theorem fail (h : s.Truthful g subject) {f : Failure} (hf : f.Truthful g subject) :
    (s.fail f).Truthful g subject :=
  ⟨h.furthest.combine hf, h.entries⟩

theorem note (h : s.Truthful g subject) (observer : Observer ω) (active : List Call)
    (event : Event) : (s.note observer active event).Truthful g subject :=
  ⟨h.furthest, h.entries⟩

theorem insert (h : s.Truthful g subject) {e : Entry} (he : e.Truthful g subject) :
    ({ s with memo := s.memo.insert p r e } : Session ω).Truthful g subject := by
  refine ⟨h.furthest, fun he' => ?_⟩
  rcases MemoTable.eq_or_of_get?_insert he' with ⟨-, -, rfl⟩ | ⟨-, he'⟩
  · exact he
  · exact h.entries he'

theorem marked {new : Nat → RuleId → RuleId → Prop} {again : Nat → RuleId → Prop}
    (h : s.Truthful g subject) {m : MemoTable} (hmarked : s.memo.Marked new again m) :
    ({ s with memo := m } : Session ω).Truthful g subject := by
  refine ⟨h.furthest, fun {p r e'} he' => ?_⟩
  obtain ⟨e, he, hmark⟩ := hmarked.exists_of_get? he'
  exact ⟨hmark.found ▸ (h.entries he).stop_le, hmark.failure ▸ (h.entries he).failure⟩

theorem lookup (h : s.Truthful g subject) :
    ({ s with memo := (s.memo.lookup p r).2 } : Session ω).Truthful g subject :=
  ⟨h.furthest, fun he => h.entries ((s.memo.get?_lookup p r _ _).symm.trans he)⟩

end Session.Truthful

theorem Entry.truthful_inProgress : Entry.inProgress.Truthful g subject :=
  ⟨fun _ h => by contradiction, fun _ h => by contradiction⟩

theorem Entry.Truthful.store {e : Entry} (h : e.Truthful g subject) (state : MemoState) {f : Found}
    (hf : f.stop ≤ subject.length) : (e.store state f).Truthful g subject where
  stop_le f' hf' := by
    cases hf'
    exact hf
  failure := h.failure

/-! ### Evaluation -/

/-- A result that tells the truth: its match, if it is one, ends inside the input. -/
def Reported {α : Type} (g : Grammar) (subject : Subject) (stop : α → Nat) :
    Outcome α × Session ω → Prop
  | (.ok a, s) => stop a ≤ subject.length ∧ s.Truthful g subject
  | (.backtrack f, s) => f.Truthful g subject ∧ s.Truthful g subject
  | (.abort _, _) => True

open Unlimited

theorem Reported.onMatch {α β : Type} {stop : α → Nat} {stop' : β → Nat} {k : α → β}
    (hk : ∀ a, stop' (k a) = stop a) {result : Outcome α × Session ω}
    (h : Reported g subject stop result) : Reported g subject stop' (onMatch k result) := by
  obtain ⟨a | f | e, s⟩ := result
  · exact ⟨hk a ▸ h.1, h.2⟩
  · exact h
  · trivial

namespace Task

variable {task : Task ω} {active : List Call} {id : AtomId} {r : RuleId} {p : Nat}
  {out : Array ParseTree} {s : Session ω}

theorem noteAtom_reported {result : Outcome Matched × Session ω}
    (h : Reported g subject Matched.stop result) :
    Reported g subject Matched.stop (task.noteAtom active id p result) := by
  obtain ⟨m | f | e, s⟩ := result
  · exact ⟨h.1, h.2.note _ _ _⟩
  · exact ⟨h.1, h.2.note _ _ _⟩
  · trivial

theorem terminal_reported (hg : task.grammar.WellFormed) {input : Input}
    (hsubject : task.subject = .ofInput input) {atom : Atom}
    (hatom : task.grammar.atoms[id]? = some atom) (hlabel : atom.label?.isSome = true)
    (hp : p ≤ task.subject.length) (hs : s.Truthful task.grammar task.subject) :
    Reported task.grammar task.subject Matched.stop (task.terminal id p out s) := by
  rw [terminal]
  cases hmatch : task.subject.matchTerminal task.grammar id p with
  | none =>
      have hf := Failure.truthful_expecting hp hatom hlabel hmatch
      exact ⟨hf, hs.fail hf⟩
  | some m =>
      refine ⟨?_, hs⟩
      rw [hsubject] at hp hmatch ⊢
      rw [Subject.length_ofInput] at hp ⊢
      exact (hg.matchTerminal_stop hp hmatch #[]).2.1

/-- A lookahead forgets what was expected on the way, and so reports less. -/
theorem lookahead_reported {positive : Bool} {a : AtomId} (hp : p ≤ subject.length)
    (hs : s.Truthful g subject) {result : Outcome Matched × Session ω}
    (h : Reported g subject Matched.stop result) :
    Reported g subject Matched.stop (lookahead (fun _ _ _ _ => result) a positive p out s) := by
  obtain ⟨m | f | e, after⟩ := result <;> cases positive
  · exact ⟨Failure.truthful_here hp, hs.furthest, h.2.entries⟩
  · exact ⟨hp, hs.furthest, h.2.entries⟩
  · exact ⟨hp, hs.furthest, h.2.entries⟩
  · exact h
  · trivial
  · trivial

theorem replay_reported {entry : Entry} (hp : p ≤ subject.length) (hs : s.Truthful g subject)
    (hentry : entry.Truthful g subject) :
    Reported g subject Found.stop (task.replay active r p entry s) := by
  have hseed : ∀ {s' : Session ω}, s'.Truthful g subject →
      Reported g subject Found.stop (seedOr (.here p) entry, s') := by
    intro s' hs'
    rw [seedOr]
    cases hfound : entry.found? with
    | none => exact ⟨Failure.truthful_here hp, hs'⟩
    | some found => exact ⟨hentry.stop_le found hfound, hs'⟩
  -- To mark an entry, or its dependents, changes neither its seed nor its failure.
  have hmarked : (s.reenter active r p).Truthful g subject := by
    have hupdate : ∀ {s : Session ω}, s.Truthful g subject → ∀ f : Entry → Entry,
        (∀ e, (f e).found? = e.found? ∧ (f e).failure = e.failure) →
        ({ s with memo := s.memo.update p r f } : Session ω).Truthful g subject := by
      intro s hs f hf
      refine ⟨hs.furthest, fun {p' r' e'} he' => ?_⟩
      rw [MemoTable.get?_update] at he'
      split at he'
      · obtain ⟨e, he, rfl⟩ := Option.map_eq_some_iff.1 he'
        exact ⟨(hf e).1 ▸ (hs.entries he).stop_le, (hf e).2 ▸ (hs.entries he).failure⟩
      · exact hs.entries he'
    rw [Session.reenter]
    split
    · exact hupdate (hupdate hs ({ · with state := .reentered }) fun _ => ⟨rfl, rfl⟩)
        (·.addDependents _) fun _ => ⟨rfl, rfl⟩
    · exact hupdate hs ({ · with state := .reentered }) fun _ => ⟨rfl, rfl⟩
  unfold replay
  split
  · exact hseed (hs.note _ _ _)
  · refine ⟨?_, hs.note _ _ _⟩
    cases hfailure : entry.failure with
    | none => exact Failure.truthful_here hp
    | some f => exact hentry.failure f hfailure
  · exact hseed (hmarked.note _ _ _)

theorem entered_truthful (hs : s.Truthful g subject) :
    (task.entered active r p s).Truthful g subject :=
  ((hs.marked (marked_enlist s active r p)).insert Entry.truthful_inProgress).note _ _ _

def Round.Reported (g : Grammar) (subject : Subject) : Round ω → Prop
  | .done outcome s => Seedling.Reported g subject Found.stop (outcome, s)
  | .again s => s.Truthful g subject

theorem settle_reported {entry : Entry} (hentry : s.memo.get? p r = some entry)
    {attempt : Outcome Found} {round : Round ω}
    (hsettles : RoundsTo task active r p entry (attempt, s) round)
    (h : Reported g subject Found.stop (attempt, s)) : round.Reported g subject := by
  have haccept : ∀ {f : Found}, f.stop ≤ subject.length → s.Truthful g subject →
      (task.accept active r p entry f s).Reported g subject := fun hf hs =>
    ⟨hf, (hs.insert ((hs.entries hentry).store .matched hf)).note _ _ _⟩
  cases hsettles with
  | abort => trivial
  | passed hseed => exact haccept ((h.2.entries hentry).stop_le _ hseed) h.2
  | outgrown hseed => exact haccept ((h.2.entries hentry).stop_le _ hseed) h.2
  | matched => exact haccept h.1 h.2
  | failed hnone =>
      refine ⟨h.1, (h.2.insert ⟨fun f' hf' => ?_, fun f' hf' => ?_⟩).note _ _ _⟩
      · cases hnone.symm.trans hf'
      · cases hf'
        exact h.1
  | grown =>
      have hdropped :
          ({ s with memo := List.foldl (fun memo other =>
            memo.remove p other) s.memo entry.dependents } : Session ω).Truthful g
          subject :=
        ⟨h.2.furthest, fun he => h.2.entries (MemoTable.get?_of_get?_removeAll he)⟩
      have hstored := fun state => (h.2.entries hentry).store state h.1
      exact ((hdropped.insert (hstored .seeded)).note _ _ _).insert (hstored .inProgress)

end Task

def Unlimited.Kind.stop : (k : Kind) → k.Match → Nat
  | .piece => Matched.stop
  | .rule => Found.stop

/-- What is to be evaluated is inside the input, and what failed before it failed truthfully. -/
def Unlimited.Job.Fair (g : Grammar) (subject : Subject) : {k : Kind} → Job k → Prop
  | _, .atom _ pos _ => pos ≤ subject.length
  | _, .operator id a pos _ => g.atoms[id]? = some a ∧ pos ≤ subject.length
  | _, .items _ pos _ _ => pos ≤ subject.length
  | _, .alternatives _ pos _ _ _ failure => pos ≤ subject.length ∧ failure.Truthful g subject
  | _, .run _ _ _ _ pos _ _ => pos ≤ subject.length
  | _, .body _ pos => pos ≤ subject.length
  | _, .growth _ pos => pos ≤ subject.length
  | _, .application _ pos => pos ≤ subject.length

/-- Evaluation reports the truth if it starts with it. -/
theorem Unlimited.Performs.reported {task : Task ω} (hg : task.grammar.WellFormed) {input : Input}
    (hsubject : task.subject = .ofInput input) {k : Kind} {active : List Call} {job : Job k}
    {s : Session ω} {result : Outcome k.Match × Session ω} (h : Performs task active job s result)
    (hjob : job.Fair task.grammar task.subject) (hs : s.Truthful task.grammar task.subject) :
    Reported task.grammar task.subject k.stop result := by
  -- On the evaluation. What alternatives have expected so far is part of the job, and so has to
  -- be fair.
  induction h with
  | atom hatom _ ih => exact Task.noteAtom_reported (ih ⟨hatom, hjob⟩ hs)
  | rule _ ih =>
      refine Reported.onMatch ?_ (ih hjob.2 hs)
      exact fun _ => rfl
  | literal | pattern | token => exact Task.terminal_reported hg hsubject hjob.1 rfl hjob.2 hs
  | sequence _ ih | repetition _ ih => exact ih hjob.2 hs
  | choice _ ih => exact ih ⟨hjob.2, Failure.truthful_here hjob.2⟩ hs
  | lookahead _ ih => exact Task.lookahead_reported hjob.2 hs (ih hjob.2 hs)
  | discard _ ih | splice _ ih =>
      refine Reported.onMatch ?_ (ih hjob.2 hs)
      exact fun _ => rfl
  | done | full => exact ⟨hjob, hs⟩
  | item _ _ ihx ih =>
      obtain ⟨hstop, hs⟩ := ihx hjob hs
      exact ih hstop hs
  | broken _ ihx => exact ihx hjob hs
  | exhausted => exact ⟨hjob.2, hs⟩
  | taken _ ihx =>
      obtain ⟨hstop, hs⟩ := ihx hjob.1 (hs.note _ _ _)
      exact ⟨hstop, hs.note _ _ _⟩
  | passed _ _ ihx ih =>
      obtain ⟨hf, hs⟩ := ihx hjob.1 (hs.note _ _ _)
      exact ih ⟨hjob.1, hjob.2.combine hf⟩ (hs.note _ _ _)
  | more _ _ _ _ ihx ih =>
      obtain ⟨hstop, hs⟩ := ihx hjob hs
      exact ih hstop hs
  | empty _ _ _ ihx | tooFew _ _ _ ihx => exact ihx hjob hs
  | enough _ _ _ ihx => exact ⟨hjob, (ihx hjob hs).2⟩
  | body _ _ ih =>
      refine Reported.onMatch ?_ (ih hjob hs)
      exact fun _ => rfl
  | settled _ hentry hsettle ihx =>
      exact Task.settle_reported hentry (Task.roundsTo_of_settle hentry hsettle) (ihx hjob hs)
  | grown _ hentry hsettle _ ihx ih =>
      exact ih hjob (Task.settle_reported hentry (Task.roundsTo_of_settle hentry hsettle)
        (ihx hjob hs))
  | replayed hentry _ => exact Task.replay_reported hjob hs.lookup (hs.entries hentry)
  | entered _ _ ih => exact ih hjob (Task.entered_truthful hs.lookup)

theorem attempt_reported (hg : g.WellFormed) {input : Input} {start : RuleId}
    (hstart : start < g.rules.size) (observer : Observer ω) (log : ω) (depth : Nat) :
    Reported g (.ofInput input) Found.stop (attempt g input observer log start depth) := by
  have hp := Nat.zero_le input.length
  have hfair : (0 : Nat) ≤ (Subject.ofInput input).length := Nat.zero_le _
  have hs : Session.Truthful g (.ofInput input) (⟨.empty, .here 0, log⟩ : Session ω) := by
    refine ⟨Failure.truthful_here hfair, fun he => ?_⟩
    rw [MemoTable.get?_empty] at he
    contradiction
  have hagrees := Parser.apply_nil_agrees hg hstart hp observer depth (.here 0) log
  rw [attempt]
  rcases hresult : Task.apply ⟨g, .ofInput input, observer⟩ depth [] start 0
    ⟨.empty, .here 0, log⟩ with
    ⟨_ | _ | _, s⟩ <;> rw [hresult] at hagrees
  · exact Performs.reported hg rfl hagrees hfair hs
  · exact Performs.reported hg rfl hagrees hfair hs
  · trivial

/-! ### Errors -/

def Input.locate : Input → Nat → Source.Position
  | .text t, p => .ofOffset (Text.bytes t) p
  | .tokens ts, p =>
      match ts[p]?, ts.getLast? with
      | some token, _ => token.position
      | none, some last => last.position.advance (Text.bytes last.source)
      | none, none => .start

theorem Subject.location_ofInput (input : Input) (p : Nat) :
    (ofInput input).location p = input.locate p := by
  cases input with
  | text t => exact Source.LineIndex.position_ofBytes _ _
  | tokens ts =>
      simp only [ofInput, location, Input.locate, List.getElem?_toArray, List.back?_toArray]
      cases ts[p]? with
      | some token => rfl
      | none => cases ts.getLast? <;> rfl

/-- What an error tells of its position is true. -/
structure ReportsTruly (g : Grammar) (input : Input) (position : Nat) (expected : SortedSet String)
    (location : Source.Position) : Prop where
  position_le : position ≤ input.length
  expected : ∀ label ∈ expected, label ≠ "end of input" → ∃ id atom, g.atoms[id]? = some atom ∧
    atom.label? = some label ∧ ∀ stop leaf, ¬ Stands g input id position stop leaf
  location : location = input.locate position

theorem Failure.Truthful.reportsTruly {input : Input} {f : Failure} (hg : g.Compiled)
    (h : f.Truthful g (.ofInput input)) :
    ReportsTruly g input f.position f.expected ((Subject.ofInput input).location f.position) where
  position_le := by
    rw [← Subject.length_ofInput]
    exact h.position_le
  expected label hlabel _ := by
    obtain ⟨id, atom, hatom, hname, hmatch⟩ := h.expected label hlabel
    exact ⟨id, atom, hatom, hname, hg.not_stands hmatch⟩
  location := Subject.location_ofInput input f.position

namespace Parser

theorem incompleteAt_reportsTruly {input : Input} {stop : Nat} {f : Failure} (hg : g.Compiled)
    (hf : f.Truthful g (.ofInput input)) (hstop : stop ≤ input.length) :
    ∃ position expected location,
      incompleteAt (.ofInput input) stop f = .incomplete stop position expected location ∧
        ReportsTruly g input position expected location ∧ stop ≤ position ∧
        (position = stop → "end of input" ∈ expected) := by
  refine ⟨_, _, _, rfl, ?_⟩
  generalize hfailure : (if f.position < stop then Failure.here stop else f) = failure
  have htruthful : failure.Truthful g (.ofInput input) ∧ stop ≤ failure.position := by
    rw [← hfailure]
    split
    · exact ⟨Failure.truthful_here (by rwa [Subject.length_ofInput]), Nat.le_refl stop⟩
    · rename_i hle
      exact ⟨hf, Nat.le_of_not_lt hle⟩
  obtain ⟨htruthful, hle⟩ := htruthful
  have hreports := htruthful.reportsTruly hg
  refine ⟨⟨hreports.position_le, fun label hlabel hend => ?_, hreports.location⟩, hle,
    fun heq => ?_⟩
  · split at hlabel
    · exact hreports.expected label ((SortedSet.mem_insert.1 hlabel).resolve_left hend) hend
    · exact hreports.expected label hlabel hend
  · rw [if_pos heq]
    exact SortedSet.mem_insert.2 (.inl rfl)

theorem location?_of_refusal {config : Config} {input : Input} {e : ParseError}
    (h : refusal g config input = some e) : e.location? = none := by
  have hsize : ∀ {e}, oversized config input = some e → e.location? = none := by
    intro e he
    rw [oversized] at he
    split at he
    · cases he
      rfl
    · contradiction
  rw [refusal] at h
  split at h
  · split at h
    · exact hsize h
    · cases h
      rfl
  · exact hsize h

/-- A start rule that came to no error of its own has one that tells the truth. -/
theorem conclude_reportsTruly {input : Input} (hg : g.Compiled) {abort : Session ω → Prop}
    {P : Option Found → Session ω → Prop} {result : Outcome Found × Session ω}
    (hmeets : Meets abort P result) (hreported : Reported g (.ofInput input) Found.stop result) :
    (∀ position expected location,
      conclude (.ofInput input) result = .error (.failed position expected location) →
        ReportsTruly g input position expected location) ∧
      ∀ consumed position expected location,
        conclude (.ofInput input) result =
          .error (.incomplete consumed position expected location) →
          ReportsTruly g input position expected location ∧ consumed < input.length ∧
            consumed ≤ position ∧ (position = consumed → "end of input" ∈ expected) := by
  obtain ⟨f | f | e, s⟩ := result
  · have hstop : f.stop ≤ input.length := by
      rw [← Subject.length_ofInput]
      exact hreported.1
    obtain ⟨position, expected, location, hincomplete, hreports, hle, hend⟩ :=
      incompleteAt_reportsTruly hg hreported.2.furthest hstop
    simp only [conclude, Subject.length_ofInput]
    split
    · exact ⟨fun _ _ _ h => by contradiction, fun _ _ _ _ h => by contradiction⟩
    · rename_i hne
      rw [hincomplete]
      refine ⟨fun _ _ _ h => ?_, fun _ _ _ _ h => ?_⟩
      · cases h
      · cases h
        exact ⟨hreports, Nat.lt_of_le_of_ne hstop hne, hle, hend⟩
  · have hcombined := hreported.2.furthest.combine hreported.1
    refine ⟨fun _ _ _ h => ?_, fun _ _ _ _ h => ?_⟩
    · cases h
      exact hcombined.reportsTruly hg
    · cases h
  · refine ⟨fun _ _ _ h => ?_, fun _ _ _ _ h => ?_⟩ <;>
    · cases h
      exact absurd hmeets.1 Bool.false_ne_true

variable {parser : Parser} {input : Input} {start : RuleId}

/-- Errors tell the truth. The position is inside the input and located as it should be, and no
terminal stands there whose label is listed. If only a part of the input was matched, the position
is not before its end; and at its end the end of the input would have been accepted, too. -/
theorem run_reports_truly {atoms : Array Atom} {rules : Array Rule} {root : RuleId}
    (hg : Grammar.ofParts atoms rules root = .ok parser.grammar)
    (hstart : start < parser.grammar.rules.size) (observer : Observer ω) (log : ω) :
    (∀ position expected location,
      (parser.run observer log start input).1 = .error (.failed position expected location) →
        ReportsTruly parser.grammar input position expected location) ∧
      ∀ consumed position expected location,
        (parser.run observer log start input).1 =
            .error (.incomplete consumed position expected location) →
          ReportsTruly parser.grammar input position expected location ∧ consumed < input.length ∧
            consumed ≤ position ∧ (position = consumed → "end of input" ∈ expected) := by
  have hcompiled := Grammar.assemble_compiled (Grammar.assemble_of_ofParts hg).1
  have hwf := hcompiled.toWellFormed
  cases hrefusal : refusal parser.grammar parser.config input with
  | some e =>
      have hnone := location?_of_refusal hrefusal
      rw [run_refused hrefusal]
      refine ⟨fun _ _ _ h => ?_, fun _ _ _ _ h => ?_⟩ <;>
      · cases h
        contradiction
  | none =>
      rw [run_eq_attempt hrefusal]
      have hmeets := apply_nil_derived hwf hstart (Nat.zero_le input.length) observer
        parser.config.maxDepth (.here 0) log
      exact conclude_reportsTruly hcompiled hmeets (attempt_reported hwf hstart observer log _)

/-- In `d+z` a `d` is expected behind the plus. -/
theorem run_reports_truly_sums :
    ((ofGrammar sums {}).run .silent () 0 (.text "d+z")).1 =
        .error (.incomplete 1 2 (.singleton "'d'") ⟨2, 1, 3⟩) ∧
      ReportsTruly sums (.text "d+z") 2 (.singleton "'d'") ⟨2, 1, 3⟩ := by
  have hresult : ((ofGrammar sums {}).run .silent () 0 (.text "d+z")).1 =
      .error (.incomplete 1 2 (.singleton "'d'") ⟨2, 1, 3⟩) := by
    with_unfolding_all rfl
  have htrue := @run_reports_truly Unit (ofGrammar sums {})
    (.text "d+z") 0 _ _ _ ofParts_sums (by decide)
    .silent ()
  exact ⟨hresult, (htrue.2 _ _ _ _ hresult).1⟩

end Parser

end Seedling
