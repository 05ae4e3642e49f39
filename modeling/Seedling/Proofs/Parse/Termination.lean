import Seedling.Proofs.Parse.Derivation
import Seedling.Proofs.Parse.Replay
import Seedling.Proofs.Parse.Unlimited

/-!
What holds at every moment of a parse, and that every parse ends.

From the outermost application in progress to the newest the positions never go down, no rule is
applied inside itself at the same position, and the entries of the memo table that are not final
are those of the applications in progress. So there are only so many applications inside each
other; and since what is repeated moves on and what is grown gets longer, a parse ends without
any limit on it.
-/

namespace Seedling

/-- A moment of a parse: the applications in progress, the newest first, and the memo table. -/
structure Moment where
  active : List Call
  memo : MemoTable

/-- Writes down every moment there is something to tell of, the newest first. -/
def Observer.moments : Observer (List Moment) where
  note active memo _ log := ⟨active, memo⟩ :: log

/-- What holds at a moment of a parse. -/
structure Moment.Sound (g : Grammar) (length : Nat) (x : Moment) : Prop where
  ascending : x.active.Pairwise fun c d => d.position ≤ c.position
  inRange : ∀ c ∈ x.active, c.rule < g.rules.size ∧ c.position ≤ length
  nodup : x.active.Nodup
  inProgress : ∀ r p, ⟨r, p⟩ ∈ x.active ↔ ∃ e, x.memo.get? p r = some e ∧ e.isFinal = false
  /-- What depends on an application was applied inside of it. The newest one, which alone can
  grow, has nothing to drop that is in progress. -/
  dependents : ∀ above c below e, x.active = above ++ c :: below →
    x.memo.get? c.position c.rule = some e → ∀ d ∈ e.dependents, ⟨d, c.position⟩ ∉ c :: below
  matched : ∀ r p e, x.memo.get? p r = some e → e.state = .matched → e.result.isSome = true
  failed : ∀ r p e, x.memo.get? p r = some e → e.state = .failed → e.failure.isSome = true
  /-- One more application than those in progress may be under way, to be answered from the
  table. -/
  depth : x.active.length + 1 ≤ g.rules.size * (length + 1) + 1

section Moments

variable {ω : Type} {L : Ledger ω} {g : Grammar} {length : Nat} {active : List Call} {s : Session ω}

theorem Kept.sound (h : Kept L g length active s) : Moment.Sound g length ⟨active, s.memo⟩ where
  ascending := h.ascending
  inRange c hc := by
    obtain ⟨e, he, -⟩ := (h.inProgress c.rule c.position).1 hc
    exact h.inRange he
  nodup := h.nodup
  inProgress := h.inProgress
  dependents above _ _ _ hsplit he := h.dependents above hsplit he
  matched r p e he hstate := by
    have hfinal : e.isFinal = true := by simp [Entry.isFinal, hstate]
    rcases (h.settled he hfinal).1 with ⟨-, hsome⟩ | ⟨hfailed, -⟩
    · rwa [Entry.found?, Option.isSome_map] at hsome
    · cases hstate.symm.trans hfailed
  failed r p e he hstate := by
    have hfinal : e.isFinal = true := by simp [Entry.isFinal, hstate]
    rcases (h.settled he hfinal).1 with ⟨hmatched, -⟩ | ⟨-, -, hsome⟩
    · cases hstate.symm.trans hmatched
    · exact hsome
  depth := Nat.succ_le_succ h.length_active_le

theorem sound_note {input : Input} {s : Session (List Moment)} {event : Event}
    (h : Kept (derivedLedger g input fun log => ∀ x ∈ log, x.Sound g input.length) g
      (Subject.ofInput input).length active s) :
    ∀ x ∈ Observer.moments.note active s.memo event s.log, x.Sound g input.length := by
  intro x hx
  rcases List.mem_cons.1 hx with rfl | hx
  · rw [← Subject.length_ofInput]
    exact h.sound
  · exact h.log x hx

end Moments

open Unlimited

namespace Parser

/-- What a parse from a rule comes to without limits, other than that on the size of the input. -/
inductive RunsTo {ω : Type} (p : Parser) (observer : Observer ω) (log : ω) (rule : RuleId)
    (input : Input) : Except ParseError ParseTree × ω × Parser → Prop where
  | refused {e} :
      refusal p.grammar p.config input = some e →
        RunsTo p observer log rule input (.error e, log, p)
  | parsed {outcome s} :
      refusal p.grammar p.config input = none →
        Performs ⟨p.grammar, .ofInput input, observer⟩ [] (.application rule 0)
          ⟨.empty, .here 0, log⟩
          (outcome, s) →
        RunsTo p observer log rule input
          (conclude (.ofInput input) (outcome, s), s.log, p.reset.leave (outcome, s))

variable {parser : Parser} {input : Input} {start : RuleId}

theorem RunsTo.unique {ω : Type} {observer : Observer ω} {log : ω}
    {result result' : Except ParseError ParseTree × ω × Parser}
    (h : parser.RunsTo observer log start input result)
    (h' : parser.RunsTo observer log start input result') : result = result' := by
  cases h with
  | refused hrefusal =>
      cases h' with
      | refused hrefusal' =>
          cases hrefusal.symm.trans hrefusal'
          rfl
      | parsed hnone => cases hrefusal.symm.trans hnone
  | parsed hnone h =>
      cases h' with
      | refused hrefusal => cases hnone.symm.trans hrefusal
      | parsed _ h' =>
          cases h.unique h'
          rfl

theorem eq_inputTooLarge_of_refusal {g : Grammar} {config : Config} {e : ParseError}
    (h : refusal g config input = some e) (he : e.isLimit = true) :
    e = .inputTooLarge input.length config.maxInputSize := by
  have hsize : ∀ {e}, oversized config input = some e →
      e = .inputTooLarge input.length config.maxInputSize := by
    intro e h
    rw [oversized] at h
    split at h
    · cases h
      rfl
    · contradiction
  rw [refusal] at h
  split at h
  · split at h
    · exact hsize h
    · cases h
      contradiction
  · exact hsize h

theorem isLimit_of_conclude {ω : Type} {subject : Subject} {result : Outcome Found × Session ω}
    {o : Option Found} {e : ParseError} (hresult : result.1.result? = some o)
    (h : conclude subject result = .error e) : e.isLimit = false := by
  obtain ⟨f | f | e', s⟩ := result
  · unfold conclude at h
    dsimp only at h
    split at h
    · contradiction
    · cases h
      rfl
  · cases h
    rfl
  · contradiction

/-- The moments of a parse are sound, also of one that a limit ends. -/
theorem moments_sound (hg : parser.grammar.WellFormed)
    (hstart : start < parser.grammar.rules.size) :
    ∀ x ∈ (parser.run .moments [] start input).2.1, x.Sound parser.grammar input.length := by
  cases hrefusal : refusal parser.grammar parser.config input with
  | some e =>
      rw [run_refused hrefusal]
      exact fun x hx => absurd hx List.not_mem_nil
  | none =>
      let L := derivedReading hg .moments input
        (fun log => ∀ x ∈ log, x.Sound parser.grammar input.length) sound_note
      have hempty : L.Log [] := fun x hx => absurd hx List.not_mem_nil
      have hmeets := L.apply_nil_meets hg rfl parser.config.maxDepth (.here 0) hempty
        ⟨hstart, Nat.zero_le _⟩
      rw [run_accepted hrefusal, evaluate_reset]
      dsimp only
      rcases hresult : Task.apply ⟨parser.grammar, .ofInput input,
        .moments⟩ parser.config.maxDepth []
        start 0 ⟨.empty, .here 0, []⟩ with ⟨_ | _ | _, s⟩ <;> rw [hresult] at hmeets
      · exact hmeets.2
      · exact hmeets.2
      · exact hmeets.2.2

theorem apply_nil_agrees {ω : Type} {g : Grammar} (hg : g.WellFormed) {r : RuleId}
    (hr : r < g.rules.size) {p : Nat} (hp : p ≤ input.length) (observer : Observer ω) (room : Nat)
    (f : Failure) (log : ω) :
    Agrees (Performs ⟨g, .ofInput input, observer⟩ [] (.application r p) ⟨.empty, f, log⟩)
      (Task.apply ⟨g, .ofInput input, observer⟩ room [] r p ⟨.empty, f, log⟩) := by
  let L := derivedReading hg observer input (fun _ => True) fun _ => trivial
  have hadmits : L.Admits [] r p := ⟨⟨hr, hp⟩, fun _ hc => absurd hc List.not_mem_nil⟩
  exact Reading.apply_agrees hg rfl (Reading.holds_start f (show L.Log log from trivial)) hadmits

/-- A rule applied by itself comes to a match or a failure. -/
theorem exists_performs {ω : Type} {g : Grammar} (hg : g.WellFormed) {r : RuleId}
    (hr : r < g.rules.size) {p : Nat} (hp : p ≤ input.length) (observer : Observer ω) (f : Failure)
    (log : ω) :
    ∃ result : Outcome Found × Session ω,
      Performs ⟨g, .ofInput input, observer⟩ [] (.application r p) ⟨.empty, f, log⟩ result ∧
        ∃ o, result.1.result? = some o := by
  -- There is room for as many applications inside each other as there can be.
  have hmeets := apply_nil_derived hg hr hp observer (g.rules.size * (input.length + 1) + 1) f log
  obtain ⟨o, ho, -⟩ := hmeets.result? (Nat.not_succ_le_self _)
  have hagrees := apply_nil_agrees hg hr hp observer (g.rules.size * (input.length + 1) + 1) f log
  refine ⟨_, ?_, o, ho⟩
  generalize Task.apply (⟨g, .ofInput input, observer⟩ : Task ω)
    (g.rules.size * (input.length + 1) + 1) [] r p ⟨.empty, f, log⟩ = result at ho hagrees
  obtain ⟨_ | _ | _, s⟩ := result
  · exact hagrees
  · exact hagrees
  · contradiction

/-- At every moment of a parse, also of one that is given up, the applications in progress and
the memo table are sound. Without limits every parse ends; and a parse with them comes to the
same, unless it has less room than for each rule at each position and gives up. -/
theorem run_sound_and_unlimited {atoms : Array Atom} {rules : Array Rule} {root : RuleId}
    (hg : Grammar.ofParts atoms rules root = .ok parser.grammar)
    (hstart : start < parser.grammar.rules.size) :
    (∀ x ∈ (parser.run .moments [] start input).2.1, x.Sound parser.grammar input.length) ∧
      ∀ {ω : Type} (observer : Observer ω) (log : ω), ∃ result,
        (∀ result', parser.RunsTo observer log start input result' ↔ result' = result) ∧
          (∀ e, result.1 = .error e → e.isLimit = true →
            e = .inputTooLarge input.length parser.config.maxInputSize) ∧
          (parser.run observer log start input = result ∨
            parser.config.maxDepth ≤ parser.grammar.rules.size * (input.length + 1) ∧
              ∃ e, (parser.run observer log start input).1 = .error e ∧ e.isLimit = true) := by
  obtain ⟨hwf, -⟩ := Grammar.ofParts_eq_ok hg
  refine ⟨moments_sound hwf hstart, fun observer log => ?_⟩
  have hunique : ∀ {result}, parser.RunsTo observer log start input result →
      ∀ result', parser.RunsTo observer log start input result' ↔ result' = result :=
    fun h result' => ⟨fun h' => h'.unique h, fun heq => heq ▸ h⟩
  cases hrefusal : refusal parser.grammar parser.config input with
  | some e =>
      refine ⟨_, hunique (.refused hrefusal), fun e' heq he => ?_, .inl ?_⟩
      · cases heq
        exact eq_inputTooLarge_of_refusal hrefusal he
      · rw [run_refused hrefusal]
  | none =>
      have hp := Nat.zero_le input.length
      obtain ⟨⟨outcome, s⟩, hend, o, ho⟩ := exists_performs hwf hstart hp observer (.here 0) log
      refine ⟨_, hunique (.parsed hrefusal hend), fun e heq he => ?_, ?_⟩
      · cases he.symm.trans (isLimit_of_conclude ho heq)
      · have hmeets := apply_nil_derived hwf hstart hp observer parser.config.maxDepth (.here 0) log
        have hagrees := apply_nil_agrees hwf hstart hp observer parser.config.maxDepth (.here 0) log
        rw [run_accepted hrefusal, evaluate_reset]
        rcases hrun : Task.apply ⟨parser.grammar, .ofInput input,
          observer⟩ parser.config.maxDepth []
          start 0 ⟨.empty, .here 0, log⟩ with ⟨_ | _ | e, s⟩ <;> rw [hrun] at hmeets hagrees
        · cases hend.unique hagrees
          exact .inl rfl
        · cases hend.unique hagrees
          exact .inl rfl
        · exact .inr ⟨hmeets.2, e, rfl, hmeets.1⟩

def roomy : Parser := ofGrammar crossed { maxDepth := 18446744073709551615 }

/-- In `ayx` three applications are inside each other while other rules depend on one of them. -/
theorem roomy_sound_and_unlimited :
    (∃ x ∈ (roomy.run .moments [] 0 (.text "ayx")).2.1, 3 ≤ x.active.length ∧
        (∃ c ∈ x.active, ∃ e ∈ x.memo.get? c.position c.rule, e.dependents ≠ []) ∧
        x.Sound crossed (Input.text "ayx").length) ∧
      roomy.RunsTo .silent () 0 (.text "ayx") (roomy.run .silent () 0 (.text "ayx")) := by
  have hg : Grammar.ofParts crossed.atoms crossed.rules 0 = .ok roomy.grammar := ofParts_crossed
  obtain ⟨hsound, hends⟩ :=
    @run_sound_and_unlimited roomy (.text "ayx") 0 _ _ _ hg (by decide)
  constructor
  · have hnested : ∃ x ∈ (roomy.run .moments [] 0 (.text "ayx")).2.1, 3 ≤ x.active.length ∧
        ∃ c ∈ x.active, ∃ e ∈ x.memo.get? c.position c.rule, e.dependents ≠ [] := by
      decide +kernel
    obtain ⟨x, hx, hlength, hdependents⟩ := hnested
    exact ⟨x, hx, hlength, hdependents, hsound x hx⟩
  · obtain ⟨result, hresult, -, heq | ⟨hcrowded, -⟩⟩ := hends .silent ()
    · exact (hresult _).2 heq
    · exact absurd hcrowded (by decide)

end Parser

end Seedling
