import Mathlib.Data.Nat.Find
import Seedling.Proofs.Parse.Comparison
import Seedling.Proofs.Parse.Termination

/-!
The limit on depth is all or nothing. With more room a parse does what it did with less, step by
step, and goes on where it was given up. So nothing in between takes notice of the limit: there
is a depth from which on all limits give one and the same result, and below it every limit ends
the parse.
-/

namespace Seedling

/-- Sessions that differ only in what has been written down. -/
structure SameSession {ω ω' : Type} (Same : ω → ω' → Prop) (s : Session ω)
    (t : Session ω') : Prop where
  memo : s.memo = t.memo
  furthest : s.furthest = t.furthest
  log : Same s.log t.log

/-- Rounds that came to the same and were not given up. -/
inductive SameRound {ω ω' : Type} (Same : ω → ω' → Prop) : Task.Round ω → Task.Round ω' → Prop where
  | done {outcome s t} : outcome.error? = none → SameSession Same s t →
      SameRound Same (.done outcome s) (.done outcome t)
  | again {s t} : SameSession Same s t → SameRound Same (.again s) (.again t)

/-- Two observers that are told the same write down what is related. -/
def Observer.Agree {ω ω' : Type} (observer : Observer ω) (observer' : Observer ω')
    (Same : ω → ω' → Prop) : Prop :=
  ∀ active memo event l l', Same l l' →
    Same (observer.note active memo event l) (observer'.note active memo event l')

section Widening

variable {ω ω' : Type} {g : Grammar} {subject : Subject} {observer : Observer ω}
  {observer' : Observer ω'} {Same : ω → ω' → Prop} (hsame : observer.Agree observer' Same)
  {s : Session ω} {t : Session ω'}

include hsame in
theorem SameSession.note (h : SameSession Same s t) (active : List Call) (event : Event) :
    SameSession Same (s.note observer active event) (t.note observer' active event) where
  memo := h.memo
  furthest := h.furthest
  log := by
    rw [Session.note, Session.note, h.memo]
    exact hsame active t.memo event _ _ h.log

variable (g subject) in
include hsame in
theorem SameSession.entered (h : SameSession Same s t) (active : List Call) (r : RuleId) (p : Nat) :
    SameSession Same (Task.entered ⟨g, subject, observer⟩ active r p s)
      (Task.entered ⟨g, subject, observer'⟩ active r p t) := by
  have hinsert : SameSession Same
      { s.enlist active r p with memo := (s.enlist active r p).memo.insert p r .inProgress }
      { t.enlist active r p with memo := (t.enlist active r p).memo.insert p r .inProgress } := by
    rw [Session.enlist, Session.enlist, h.memo]
    exact ⟨rfl, h.furthest, h.log⟩
  exact hinsert.note hsame (⟨r, p⟩ :: active) (.rule r p .enter)

variable (g subject) in
/-- An evaluation with a limit of `depth` beside one that has more room. The first is given up
only for the limit, and the second goes on from there. -/
def widening (depth : Nat) (active : List Call) :
    Comparison g subject observer observer' active active where
  Alike := SameSession Same
  Lost e s t := e = some (.recursionLimitExceeded (depth + 1) depth) ∧
    ∃ t₀, SameSession Same s t₀ ∧ Task.Goes ⟨g, subject, observer'⟩ t₀ t
  note event _ h := h.note hsame active event
  fail f h := ⟨h.memo, congrArg (·.combine f) h.furthest, h.log⟩
  lost_first _ _ h := nomatch h.1
  lost_second h hgoes := ⟨h.1, h.2.imp fun _ ⟨hsession, hsteps⟩ => ⟨hsession, hsteps.trans hgoes⟩⟩

variable {depth : Nat} {active : List Call} {r : RuleId} {p : Nat}

theorem replay_widens (e : Entry) (h : SameSession Same s t) :
    (widening g subject hsame depth active).Holds
      (Task.replay ⟨g, subject, observer⟩ active r p e s)
      (Task.replay ⟨g, subject, observer'⟩ active r p e t) := by
  have hreplayed := h.note hsame active (.rule r p .replayed)
  have hreenter : SameSession Same (s.reenter active r p) (t.reenter active r p) := by
    rw [Session.reenter, Session.reenter, h.memo]
    split
    · exact ⟨rfl, h.furthest, h.log⟩
    · exact ⟨rfl, h.furthest, h.log⟩
  have hreentered := hreenter.note hsame active (.rule r p .reentered)
  have hseed : ∀ {s' t'}, SameSession Same s' t' → (widening g subject hsame depth active).Holds
      (Task.seedOr (.here p) e, s') (Task.seedOr (.here p) e, t') := by
    intro s' t' h'
    rw [Task.seedOr]
    split
    · exact Comparison.holds_ok _ h'
    · exact Comparison.holds_backtrack _ h'
  rw [Task.replay, Task.replay]
  generalize e.state = state
  cases state with
  | matched => exact hseed hreplayed
  | failed => exact Comparison.holds_backtrack _ hreplayed
  | inProgress | reentered | seeded => exact hseed hreentered

variable (g subject) in
include hsame in
theorem SameSession.put (h : SameSession Same s t) (active : List Call) (r : RuleId) (p : Nat)
    (entry : Entry) (action : Action) :
    SameSession Same (Task.put ⟨g, subject, observer⟩ active r p entry action s)
      (Task.put ⟨g, subject, observer'⟩ active r p entry action t) := by
  have hinsert : SameSession Same { s with memo := s.memo.insert p r entry }
      { t with memo := t.memo.insert p r entry } :=
    ⟨congrArg (·.insert p r entry) h.memo, h.furthest, h.log⟩
  exact hinsert.note hsame active (.rule r p action)

include hsame in
theorem SameSession.plant (h : SameSession Same s t) (e : Entry) (found : Found) :
    SameRound Same (Task.plant ⟨g, subject, observer⟩ active r p e found s)
      (Task.plant ⟨g, subject, observer'⟩ active r p e found t) := by
  have hdrop : SameSession Same
      { s with memo := e.dependents.foldl (fun memo other => memo.remove p other) s.memo }
      { t with memo := e.dependents.foldl (fun memo other => memo.remove p other) t.memo } :=
    ⟨congrArg (e.dependents.foldl fun memo other => memo.remove p other) h.memo, h.furthest, h.log⟩
  have hput := hdrop.put g subject hsame (⟨r, p⟩ :: active) r p (e.store .seeded found)
    (.grow found.stop)
  exact .again ⟨congrArg (·.insert p r (e.store .inProgress found)) hput.memo,
    hput.furthest, hput.log⟩

variable (g subject active r p) in
include hsame in
theorem settle_same {x : Outcome Found × Session ω} {y : Outcome Found × Session ω'}
    (houtcome : x.1 = y.1) (hnone : x.1.error? = none) (h : SameSession Same x.2 y.2) :
    SameRound Same (Task.settle ⟨g, subject, observer⟩ active r p x)
      (Task.settle ⟨g, subject, observer'⟩ active r p y) := by
  obtain ⟨attempt, s⟩ := x
  obtain ⟨_, t⟩ := y
  cases houtcome
  have haccept : ∀ e found, SameRound Same (Task.accept ⟨g, subject, observer⟩ active r p e found s)
      (Task.accept ⟨g, subject, observer'⟩ active r p e found t) :=
    fun e found => .done rfl (h.put g subject hsame active r p _ _)
  unfold Task.settle
  dsimp only at h ⊢
  rw [h.memo]
  cases t.memo.get? p r with
  | none => exact .done hnone h
  | some e =>
      cases attempt with
      | abort => contradiction
      | backtrack f =>
          dsimp only
          split
          · exact haccept e _
          · exact .done rfl (h.put g subject hsame active r p _ _)
      | ok found =>
          dsimp only
          split
          · split
            · split
              · exact haccept e _
              · exact h.plant hsame e found
            · exact h.plant hsame e found
          · exact haccept e found

/-- A rule that grows with a limit grows the same way with more room. -/
theorem grow_widens {body : Session ω → Outcome Found × Session ω}
    {body' : Session ω' → Outcome Found × Session ω'}
    (hbody : ∀ s t, SameSession Same s t →
      (widening g subject hsame depth active).Holds (body s) (body' t))
    (hgoes : ∀ t, Task.Goes ⟨g, subject, observer'⟩ t (body' t).2)
    (rounds : Nat) (h : SameSession Same s t) :
    (widening g subject hsame depth active).Holds
      (Task.grow ⟨g, subject, observer⟩ active r p body rounds s)
      (Task.grow ⟨g, subject, observer'⟩ active r p body' rounds t) := by
  induction rounds generalizing s t with
  | zero => exact Comparison.holds_backtrack _ h
  | succ rounds ih =>
      rcases hbody s t h with ⟨houtcome, hnone, halike⟩ | ⟨herror, t₀, hsession, hsteps⟩
      · have hround := settle_same g subject hsame active r p houtcome hnone halike
        rw [Task.grow, Task.grow]
        generalize Task.settle ⟨g, subject, observer⟩ active r p (body s) = round at hround ⊢
        generalize Task.settle ⟨g, subject, observer'⟩ active r p (body' t) = round' at hround ⊢
        cases hround with
        | done hnone' h' => exact .inl ⟨rfl, hnone', h'⟩
        | again h' => exact ih h'
      · -- The first is given up as its body was; the second goes on from its own.
        have hresult : body s = (.abort _, (body s).2) :=
          Prod.ext (Outcome.eq_abort_of_error? herror) rfl
        have hgoes' := @grow_succ_steps ω' ⟨g, subject, observer'⟩
          (fun _ => True) active r trivial p
          body' rounds (grow_steps trivial p hgoes rounds) t
        rw [Task.grow, hresult, settle_abort]
        exact .inr ⟨rfl, t₀, hsession, hsteps.trans hgoes'⟩

/-- A rule that is applied with a limit is applied the same way with more room, until there is
no room left for the first. -/
theorem apply_widens {room room' : Nat} (hroom : room ≤ room')
    (hdepth : room + active.length = depth) (h : SameSession Same s t) :
    (widening g subject hsame depth active).Holds
      (Task.apply ⟨g, subject, observer⟩ room active r p s)
      (Task.apply ⟨g, subject, observer'⟩ room' active r p t) := by
  induction room generalizing room' active r p s t with
  | zero =>
      rw [Nat.zero_add] at hdepth
      rw [← hdepth, Task.apply]
      exact .inr ⟨rfl, t, h, Task.apply_goes _ room' active r p t⟩
  | succ room ih =>
      obtain ⟨room', rfl⟩ : ∃ n, room' = n + 1 := ⟨room' - 1, by omega⟩
      have hlook : SameSession Same { s with memo := (s.memo.lookup p r).2 }
          { t with memo := (t.memo.lookup p r).2 } :=
        ⟨congrArg (fun memo => (memo.lookup p r).2) h.memo, h.furthest, h.log⟩
      -- the tables are the same, so either both replay an entry or both evaluate the body
      rw [Task.apply_succ, Task.apply_succ, h.memo]
      rw [h.memo] at hlook
      cases t.memo.get? p r with
      | some e => exact replay_widens hsame e hlook
      | none =>
          have hdepth' : room + (⟨r, p⟩ :: active : List Call).length = depth := by
            rw [List.length_cons]
            omega
          have hgoes := Task.apply_goes ⟨g, subject, observer'⟩ room' (⟨r, p⟩ :: active)
          refine grow_widens hsame (fun s' t' h' => ?_)
            (Task.body_goes _ hgoes (⟨r, p⟩ :: active) r p) _
              (hlook.entered g subject hsame active r p)
          refine Comparison.body_related
            (C := widening g subject hsame depth (⟨r, p⟩ :: active)) hgoes
            (fun _ _ _ _ _ => trivial)
              (fun _ _ q s t h => ih (Nat.le_of_succ_le_succ hroom) hdepth' h)
            (fun bound _ _ heval q out s t h => ?_) (fun _ _ => trivial) p h'
          exact Comparison.lookahead_related (heval _ trivial)
            (fun h h' => ⟨h'.memo, h.furthest, h'.log⟩) _ q out h

end Widening

/-! ### Parses -/

theorem Outcome.exists_result? {α : Type} {outcome : Outcome α} (h : outcome.error? = none) :
    ∃ o, outcome.result? = some o := by
  cases outcome with
  | ok a => exact ⟨some a, rfl⟩
  | backtrack => exact ⟨none, rfl⟩
  | abort => contradiction

/-- What a rule at the start of the input comes to with a limit on depth. -/
def attempt {ω : Type} (g : Grammar) (input : Input) (observer : Observer ω) (log : ω)
    (start : RuleId) (depth : Nat) : Outcome Found × Session ω :=
  Task.apply ⟨g, .ofInput input, observer⟩ depth [] start 0 ⟨.empty, .here 0, log⟩

section Attempts

variable {ω : Type} {g : Grammar} {input : Input} {observer : Observer ω} {log : ω} {start : RuleId}
  {d d' : Nat}

/-- With more room a rule comes to the same, or goes on where it was given up. -/
theorem attempt_cases (hle : d ≤ d') :
    ((attempt g input observer log start d).1.error? = none ∧
        attempt g input observer log start d' = attempt g input observer log start d) ∨
      (attempt g input observer log start d).1.error? = some (.recursionLimitExceeded (d + 1) d) ∧
        Task.Goes ⟨g, .ofInput input, observer⟩ (attempt g input observer log start d).2
          (attempt g input observer log start d').2 := by
  have hsame : observer.Agree observer Eq := fun _ _ _ _ _ hlog => by rw [hlog]
  have heq : ∀ {s t : Session ω}, SameSession Eq s t → s = t := by
    rintro ⟨_, _, _⟩ ⟨_, _, _⟩ ⟨hmemo, hfurthest, hlog⟩
    cases hmemo
    cases hfurthest
    cases hlog
    rfl
  have hholds : (widening g (.ofInput input) hsame d []).Holds
      (attempt g input observer log start d)
      (attempt g input observer log start d') := apply_widens hsame hle rfl ⟨rfl, rfl, rfl⟩
  rcases hholds with ⟨houtcome, hnone, hsession⟩ | ⟨herror, t₀, hsession, hgoes⟩
  · exact .inl ⟨hnone, Prod.ext houtcome.symm (heq hsession).symm⟩
  · exact .inr ⟨herror, heq hsession ▸ hgoes⟩

theorem attempt_eq_of_le (h : (attempt g input observer log start d).1.error? = none)
    (hle : d ≤ d') :
    attempt g input observer log start d' = attempt g input observer log start d := by
  rcases attempt_cases hle with ⟨-, heq⟩ | ⟨herror, -⟩
  · exact heq
  · cases h.symm.trans herror

theorem attempt_watched {ω' : Type} (observer' : Observer ω') (log' : ω')
    (h : (attempt g input observer log start d).1.error? = none) :
    (attempt g input observer' log' start d).1 = (attempt g input observer log start d).1 ∧
      (attempt g input observer' log' start d).2.memo =
        (attempt g input observer log start d).2.memo ∧
      (attempt g input observer' log' start d).2.furthest =
        (attempt g input observer log start d).2.furthest := by
  have hsame : observer.Agree observer' fun _ _ => True := fun _ _ _ _ _ _ => trivial
  have hholds : (widening g (.ofInput input) hsame d []).Holds
      (attempt g input observer log start d)
      (attempt g input observer' log' start d) :=
    apply_widens hsame (Nat.le_refl d) rfl ⟨rfl, rfl, trivial⟩
  rcases hholds with ⟨houtcome, -, hsession⟩ | ⟨herror, -⟩
  · exact ⟨houtcome.symm, hsession.memo.symm, hsession.furthest.symm⟩
  · cases h.symm.trans herror

/-- With room for every rule at every position nothing is given up. -/
theorem error?_attempt_roomy (hg : g.WellFormed) (hstart : start < g.rules.size) :
    (attempt g input observer log start (g.rules.size * (input.length + 1) + 1)).1.error? =
      none := by
  have hmeets := apply_nil_derived hg hstart (Nat.zero_le input.length) observer
    (g.rules.size * (input.length + 1) + 1) (.here 0) log
  exact hmeets.error? (Nat.not_succ_le_self _)

theorem exists_least_depth (hg : g.WellFormed) (hstart : start < g.rules.size) (input : Input) :
    ∃ D, 1 ≤ D ∧ D ≤ g.rules.size * (input.length + 1) + 1 ∧
      ∀ {ω : Type} (observer : Observer ω) (log : ω) (d : Nat),
        (attempt g input observer log start d).1.error? = none ↔ D ≤ d := by
  have hfits : ∃ d, (attempt g input .silent () start d).1.error? = none :=
    ⟨_, error?_attempt_roomy hg hstart⟩
  refine ⟨Nat.find hfits, (Nat.find_pos hfits).2 nofun, Nat.find_min' hfits
    (error?_attempt_roomy hg hstart), fun observer log d => ⟨fun hnone => ?_, fun hle => ?_⟩⟩
  · refine Nat.find_min' hfits ?_
    rw [(attempt_watched .silent () hnone).1]
    exact hnone
  · have hnone := Nat.find_spec hfits
    rw [← attempt_eq_of_le hnone hle] at hnone
    rw [(attempt_watched observer log hnone).1]
    exact hnone

end Attempts

namespace Parser

def within (p : Parser) (depth : Nat) : Parser :=
  { p with config := { p.config with maxDepth := depth } }

variable {parser : Parser} {input : Input} {start : RuleId}

theorem run_eq_attempt (hrefusal : refusal parser.grammar parser.config input = none) {ω : Type}
    (observer : Observer ω) (log : ω) :
    parser.run observer log start input =
      (conclude (.ofInput input)
        (attempt parser.grammar input observer log start parser.config.maxDepth),
          (attempt parser.grammar input observer log start parser.config.maxDepth).2.log,
        parser.reset.leave
          (attempt parser.grammar input observer log start parser.config.maxDepth)) := by
  rw [run_accepted hrefusal, evaluate_reset]
  rfl

theorem conclude_abort {ω : Type} {subject : Subject} {result : Outcome Found × Session ω}
    {e : ParseError} (h : result.1 = .abort e) : conclude subject result = .error e := by
  obtain ⟨_, s⟩ := result
  cases h
  rfl

theorem conclude_congr {ω ω' : Type} {subject : Subject} {x : Outcome Found × Session ω}
    {y : Outcome Found × Session ω'} (houtcome : x.1 = y.1)
    (hfurthest : x.2.furthest = y.2.furthest) : conclude subject x = conclude subject y := by
  obtain ⟨outcome, s⟩ := x
  obtain ⟨_, t⟩ := y
  dsimp only at houtcome hfurthest
  cases houtcome
  cases outcome with
  | ok found => rw [conclude, conclude, hfurthest]
  | backtrack f => rw [conclude, conclude, hfurthest]
  | abort e => rfl

theorem run_within (hmode : ∀ mode, parser.grammar.mode? = some mode → mode = input.mode)
    (hsize : input.length ≤ parser.config.maxInputSize) {ω : Type} (observer : Observer ω) (log : ω)
    (depth : Nat) :
    (parser.within depth).run observer log start input =
      (conclude (.ofInput input) (attempt parser.grammar input observer log start depth),
        (attempt parser.grammar input observer log start depth).2.log,
        (parser.within depth).reset.leave
          (attempt parser.grammar input observer log start depth)) := by
  have hfits : oversized (parser.within depth).config input = none :=
    if_neg (Nat.not_lt_of_le hsize)
  have hrefusal : refusal (parser.within depth).grammar
      (parser.within depth).config input = none := by
    rw [refusal]
    split
    · rename_i mode hm
      rw [if_pos (hmode mode hm), hfits]
    · exact hfits
  exact run_eq_attempt hrefusal observer log

/-- The limit on depth is all or nothing. From some depth on, which is at most one more than all
rules at all positions, every limit gives one and the same result, which is no limit error; and
every lower limit ends the parse with the error that names it. With a higher limit a parse
begins as it does with a lower one. -/
theorem exists_depth_threshold {atoms : Array Atom} {rules : Array Rule} {root : RuleId}
    (hg : Grammar.ofParts atoms rules root = .ok parser.grammar)
    (hstart : start < parser.grammar.rules.size)
    (hmode : ∀ mode, parser.grammar.mode? = some mode → mode = input.mode)
    (hsize : input.length ≤ parser.config.maxInputSize) :
    (∃ D, 1 ≤ D ∧ D ≤ parser.grammar.rules.size * (input.length + 1) + 1 ∧
      ∀ {ω : Type} (observer : Observer ω) (log : ω),
        (∃ verdict seen, ∃ left : Parser,
          left.grammar = parser.grammar ∧ left.config = parser.config ∧
          (∀ e, verdict = .error e → e.isLimit = false) ∧
          ∀ d, D ≤ d →
            (parser.within d).run observer log start input = (verdict, seen, left.within d)) ∧
        ∀ d, d < D → ((parser.within d).run observer log start input).1 =
          .error (.recursionLimitExceeded (d + 1) d)) ∧
      ∀ d d', d ≤ d' → ((parser.within d).run .sights [] start input).2.1 <:+
        ((parser.within d').run .sights [] start input).2.1 := by
  obtain ⟨hwf, -⟩ := Grammar.ofParts_eq_ok hg
  obtain ⟨D, hpos, hbound, hleast⟩ := exists_least_depth hwf hstart input
  refine ⟨⟨D, hpos, hbound, fun observer log => ⟨?_, fun d hlt => ?_⟩⟩, fun d d' hle => ?_⟩
  · have hnone := (hleast observer log D).2 (Nat.le_refl D)
    obtain ⟨o, ho⟩ := Outcome.exists_result? hnone
    refine ⟨conclude (.ofInput input) (attempt parser.grammar input observer log start D),
      (attempt parser.grammar input observer log start D).2.log,
      parser.reset.leave (attempt parser.grammar input observer log start D), rfl, rfl,
      fun e he => isLimit_of_conclude ho he, fun d hle => ?_⟩
    rw [run_within hmode hsize, attempt_eq_of_le hnone hle]
    rfl
  · have hnone := mt (hleast observer log d).1 (Nat.not_le_of_lt hlt)
    rcases attempt_cases (Nat.le_refl d) with ⟨hfits, -⟩ | ⟨herror, -⟩
    · exact absurd hfits hnone
    · rw [run_within hmode hsize]
      exact conclude_abort (Outcome.eq_abort_of_error? herror)
  · rw [run_within hmode hsize, run_within hmode hsize]
    rcases attempt_cases hle with ⟨-, heq⟩ | ⟨-, hgoes⟩
    · rw [heq]
    · exact hgoes.suffix

def gaveUp : Except ParseError ParseTree → Bool
  | .ok _ => false
  | .error e => e.isLimit

theorem gaveUp_eq_false {verdict : Except ParseError ParseTree}
    (h : ∀ e, verdict = .error e → e.isLimit = false) : gaveUp verdict = false := by
  cases verdict with
  | error e => exact h e rfl
  | ok => rfl

/-- In `ayx` three rules of `crossed` are inside each other when one of them is met again, which
takes room for a fourth. -/
theorem roomy_depth_threshold :
    ((roomy.within 3).run .silent () 0 (.text "ayx")).1 = .error (.recursionLimitExceeded 4 3) ∧
      ∃ verdict, (∀ e, verdict = .error e → e.isLimit = false) ∧
        ∀ d, 4 ≤ d → ((roomy.within d).run .silent () 0 (.text "ayx")).1 = verdict := by
  have hg : Grammar.ofParts crossed.atoms crossed.rules 0 = .ok roomy.grammar := ofParts_crossed
  have hmode : ∀ mode, roomy.grammar.mode? = some mode → mode = (Input.text "ayx").mode := by
    decide
  obtain ⟨⟨D, -, -, hthreshold⟩, -⟩ :=
    @exists_depth_threshold roomy (.text "ayx") 0 _ _ _ hg (by decide) hmode (by decide)
  obtain ⟨⟨verdict, seen, left, -, -, hlimit, hsame⟩, hlow⟩ := hthreshold .silent ()
  have hle : D ≤ 4 := by
    by_contra hgt
    exact absurd (noLimit_of_check (by decide +kernel) _ (hlow 4 (Nat.lt_of_not_le hgt))) nofun
  have hgt : 3 < D := by
    by_contra hle
    have hcheck : gaveUp ((roomy.within 3).run .silent () 0 (.text "ayx")).1 = true := by
      decide +kernel
    rw [hsame 3 (Nat.le_of_not_lt hle)] at hcheck
    cases hcheck.symm.trans (gaveUp_eq_false hlimit)
  exact ⟨hlow 3 hgt, verdict, hlimit, fun d hd => by rw [hsame d (Nat.le_trans hle hd)]⟩

end Parser

end Seedling
