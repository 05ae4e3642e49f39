import Seedling.Proofs.Parse.Refinement

/-!
How deep rules are nested. Where no rule comes to itself again without going on, what a rule
answers rests on the answers of rules nested less deeply. A rule that answers within some depth
answers the same when it is parsed with room for that depth, and no limit is met.
-/

namespace Seedling

/-- What the rules answer when at most `depth` of them are inside each other. -/
def Within (g : Grammar) (subject : Subject) : Nat → Answers
  | 0 => fun _ _ _ => False
  | depth + 1 => Body g subject (Within g subject depth)

section Within

variable {g : Grammar} {subject : Subject} {d d' : Nat} {r : RuleId} {p : Nat} {o o' : Option Found}

theorem Within.succ (h : Within g subject d r p o) : Within g subject (d + 1) r p o := by
  induction d generalizing r p o with
  | zero => exact h.elim
  | succ d ih => exact Body.mono h fun r' q o' => ih

theorem Within.mono (h : Within g subject d r p o) (hle : d ≤ d') : Within g subject d' r p o := by
  induction hle with
  | refl => exact h
  | step _ ih => exact ih.succ

theorem Within.unique (h : Within g subject d r p o)
    (h' : Within g subject d' r p o') : o = o' := by
  induction d generalizing d' r p o o' with
  | zero => exact h.elim
  | succ d ih =>
      cases d' with
      | zero => exact h'.elim
      | succ d' => exact Body.unique h h' fun r q o o' => ih

def Answering (g : Grammar) (subject : Subject) (d : Nat) (r : RuleId) (p : Nat) : Prop :=
  ∃ o, Within g subject d r p o

theorem Answering.exists_least (h : Answering g subject d r p) :
    ∃ e < d, Answering g subject (e + 1) r p ∧ ¬ Answering g subject e r p := by
  induction d with
  | zero =>
      obtain ⟨o, h⟩ := h
      exact h.elim
  | succ d ih =>
      by_cases hless : Answering g subject d r p
      · obtain ⟨e, he, hleast⟩ := ih hless
        exact ⟨e, Nat.lt_succ_of_lt he, hleast⟩
      · exact ⟨d, Nat.lt_succ_self d, h, hless⟩

end Within

/-- What has a meaning under some answers asks for rules that answer, also under others that
agree with them. -/
theorem Visits.answers {g : Grammar} {subject : Subject} {A A' : Answers} {form : Form} {p : Nat}
    {r : RuleId} {q : Nat} (hv : Visits g subject A form p r q) {o : Option Piece}
    (h : Meaning g subject A' form p o) (hA : ∀ r q o o', A r q o → A' r q o' → o = o') :
    ∃ o', A' r q o' := by
  -- Along the way to the site both meanings come to the same, so that the second one gets there
  -- too.
  induction hv generalizing o with
  | atom hatom _ ih =>
      cases h with
      | atom hatom' h =>
          cases hatom.symm.trans hatom'
          exact ih h
  | rule =>
      cases h with
      | rule ha => exact ⟨_, ha⟩
  | sequence _ ih =>
      cases h with
      | sequence h => exact ih h
  | choice _ ih =>
      cases h with
      | choice h => exact ih h
  | repetition _ ih =>
      cases h with
      | repetition h => exact ih h
  | lookahead _ ih =>
      cases h with
      | lookahead h => exact ih h
  | discard _ ih =>
      cases h with
      | discard h => exact ih h
  | splice _ ih =>
      cases h with
      | splice h => exact ih h
  | item _ ih =>
      cases h with
      | item hx => exact ih hx
      | broken hx => exact ih hx
  | items hx _ ih =>
      cases h with
      | item hx' h =>
          cases hx.unique hx' hA
          exact ih h
      | broken hx' => cases hx.unique hx' hA
  | alternative _ ih =>
      cases h with
      | taken hx => exact ih hx
      | passed hx => exact ih hx
  | alternatives hx _ ih =>
      cases h with
      | taken hx' => cases hx.unique hx' hA
      | passed _ h => exact ih h
  | next hfull _ ih =>
      cases h with
      | full hfull' => cases hfull.symm.trans hfull'
      | more _ hx => exact ih hx
      | empty _ hx => exact ih hx
      | enough _ hx => exact ih hx
      | tooFew _ hx => exact ih hx
  | more hfull hx hlt _ ih =>
      cases h with
      | full hfull' => cases hfull.symm.trans hfull'
      | more _ hx' _ h =>
          cases hx.unique hx' hA
          exact ih h
      | empty _ hx' hle =>
          cases hx.unique hx' hA
          exact absurd hlt hle
      | enough _ hx' => cases hx.unique hx' hA
      | tooFew _ hx' => cases hx.unique hx' hA

namespace Nesting

variable {g : Grammar} {input : Input} {active : List Call} {σ : Call → Option Found}
  {depth : Nat} {r r' : RuleId} {p q : Nat} {o : Option Found}

def Inside (input : Input) : Answers := fun _ p o =>
  ∀ f, o = some f → p ≤ input.length → p ≤ f.stop ∧ f.stop ≤ input.length

def ledger (g : Grammar) (input : Input) : Ledger Unit where
  Final r p o := ∃ d, Within g (.ofInput input) d r p o
  Seed := Inside input
  Met _ _ := False
  Log _ := True

/-- A rule that answers within what is left of the depth, while the applications around it do
not. -/
def May (g : Grammar) (input : Input) (depth : Nat) (active : List Call) (r : RuleId)
    (p : Nat) : Prop :=
  p ≤ input.length ∧ ∃ d, active.length + d ≤ depth ∧ Answering g (.ofInput input) d r p ∧
    ∀ c ∈ active, ¬ Answering g (.ofInput input) d c.rule c.position

theorem body_inside (hg : g.WellFormed) {A : Answers} (hA : ∀ r q o, A r q o → Inside input r q o)
    (h : Body g (.ofInput input) A r p o) : Inside input r p o := by
  obtain ⟨rule, -, x, hx, rfl⟩ := h
  intro f hf hp
  obtain ⟨y, rfl, rfl⟩ := Option.map_eq_some_iff.1 hf
  exact hx.bounds hg (fun r q f hq ha => hA r q _ ha f rfl hq) y rfl hp

theorem within_inside (hg : g.WellFormed) {d : Nat} (h : Within g (.ofInput input) d r p o) :
    Inside input r p o := by
  induction d generalizing r p o with
  | zero => exact h.elim
  | succ d ih => exact body_inside hg (fun r q o => ih) h

theorem says_inside (hg : g.WellFormed) (hσ : ∀ c ∈ active, Inside input c.rule c.position (σ c))
    (h : (ledger g input).Says active σ r p o) : Inside input r p o :=
  h.imp (fun _ _ _ hfinal => within_inside hg hfinal.choose_spec) hσ

/-- Inside an application that may be made, the rules answer as they do within the depth left. -/
theorem says_unique {d : Nat}
    (hactive : ∀ c ∈ active, ¬ Answering g (.ofInput input) d c.rule c.position)
    {o' : Option Found} (h : (ledger g input).Says active σ r p o)
    (h' : Within g (.ofInput input) d r p o') : o = o' := by
  rw [Ledger.Says] at h
  split at h
  · rename_i hmem
    exact absurd ⟨o', h'⟩ (hactive _ hmem)
  · obtain ⟨d', h⟩ := h
    exact h.unique h'

/-- An application that may be made rests on answers within a depth in which neither it nor
those around it have one. -/
theorem May.exists_body (h : May g input depth active r p) :
    ∃ e, active.length + (e + 1) ≤ depth ∧
      (∃ o, Body g (.ofInput input) (Within g (.ofInput input) e) r p o) ∧
      ∀ c ∈ (⟨r, p⟩ : Call) :: active, ¬ Answering g (.ofInput input) e c.rule c.position := by
  obtain ⟨-, d, hle, hanswers, hactive⟩ := h
  obtain ⟨e, he, hbody, hleast⟩ := hanswers.exists_least
  refine ⟨e, by omega, hbody, fun c hc => ?_⟩
  rcases List.mem_cons.1 hc with rfl | hc
  · exact hleast
  · rintro ⟨o, ho⟩
    exact hactive c hc ⟨o, ho.mono (Nat.le_of_lt he)⟩

theorem May.visits (hg : g.WellFormed) (h : May g input depth active r p)
    (hσ : ∀ c ∈ (⟨r, p⟩ : Call) :: active, Inside input c.rule c.position (σ c))
    (hv : BodyVisits g (.ofInput input) ((ledger g input).Says (⟨r, p⟩ :: active) σ) r p r' q) :
    May g input depth (⟨r, p⟩ :: active) r' q := by
  obtain ⟨e, he, ⟨o, rule, hrule, x, hx, -⟩, hactive⟩ := h.exists_body
  obtain ⟨rule', hrule', hv⟩ := hv
  cases hrule.symm.trans hrule'
  have hbounded : ((ledger g input).Says (⟨r, p⟩ :: active) σ).Bounded input.length :=
    fun r q f hq ha => says_inside hg hσ ha f rfl hq
  have hanswers := hv.answers hx fun _ _ _ _ => says_unique hactive
  refine ⟨(hv.bounds hg hbounded h.1).2, e, ?_, hanswers, hactive⟩
  rw [List.length_cons]
  omega

/-- A rule grows to what it answers: all stages are the same. -/
theorem May.grown (h : May g input depth active r p)
    (hgrow : GrowsTo (fun seed => Body g (.ofInput input) ((ledger g input).Says (⟨r, p⟩ :: active)
      (Function.update σ ⟨r, p⟩ seed)) r p) none o) : ∃ d, Within g (.ofInput input) d r p o := by
  obtain ⟨e, -, ⟨o₀, hbody⟩, hactive⟩ := h.exists_body
  have hstage : ∀ {seed o'}, Body g (.ofInput input) ((ledger g input).Says (⟨r, p⟩ :: active)
      (Function.update σ ⟨r, p⟩ seed)) r p o' → o' = o₀ := fun hstage =>
    Body.unique hstage hbody fun _ _ _ _ => says_unique hactive
  suffices heq : o = o₀ from ⟨e + 1, heq ▸ hbody⟩
  cases hgrow with
  | settled hfirst hout =>
      cases o₀ with
      | none => rfl
      | some f =>
          rw [hstage hfirst] at hout
          exact absurd ⟨f, rfl, fun _ hf => by contradiction⟩ hout
  | grown hfirst _ hgrow =>
      rw [hstage hfirst] at hgrow
      cases hgrow with
      | settled => rfl
      | grown hagain hout =>
          rw [hstage hagain] at hout
          obtain ⟨f, hf, hlt⟩ := hout
          exact absurd (hlt f hf) (Nat.lt_irrefl _)

/-- The reading of a parse in which no rule comes to itself again. -/
def reading (hg : g.WellFormed) (input : Input) (depth : Nat) :
    Reading (⟨g, .ofInput input, .silent⟩ : Task Unit) where
  toLedger := ledger g input
  May := May g input depth
  inRange h := by
    obtain ⟨e, -, ⟨-, rule, hrule, -⟩, -⟩ := h.exists_body
    rw [Subject.length_ofInput]
    exact ⟨(Array.getElem?_eq_some_iff.1 hrule).1, h.1⟩
  final_bounded r q f hq h := by
    rw [Subject.length_ofInput] at hq ⊢
    exact within_inside hg h.choose_spec f rfl hq
  seed_bounded r q f hq h := by
    rw [Subject.length_ofInput] at hq ⊢
    exact h f rfl hq
  start _ _ := fun _ h => by contradiction
  met h hmem := by
    obtain ⟨-, d, -, hanswers, hactive⟩ := h
    exact hactive _ hmem hanswers
  visits hmay _ hσ hv := hmay.visits hg hσ hv
  stage _ _ hσ hbody := body_inside hg (fun _ _ _ => says_inside hg hσ) hbody
  grown hmay _ _ hgrow := hmay.grown hgrow
  noted _ _ := trivial

/-- With room for the depth a rule comes to what it answers within it. -/
theorem apply_nil_within (hg : g.WellFormed) {d room : Nat} (h : Within g (.ofInput input) d r p o)
    (hp : p ≤ input.length) (hroom : d ≤ room) (f : Failure) :
    Meets (fun _ => False) (fun o' _ => o' = o)
      (Task.apply ⟨g, .ofInput input, .silent⟩ room [] r p ⟨.empty, f, ()⟩) := by
  let L := reading hg input room
  have hmay : L.May [] r p :=
    ⟨hp, d, (Nat.zero_add d).symm ▸ hroom, ⟨o, h⟩, fun c hc => absurd hc List.not_mem_nil⟩
  have hmeets := L.apply_nil_answers hg rfl room f (show L.Log () from trivial) hmay
  refine (hmeets.imp fun o' _ h' => h'.1.choose_spec.unique h).imp_abort fun _ hgiven => ?_
  -- A rule that may be applied answers within some depth, which is not left inside so many others.
  obtain ⟨active, r', p', hnested, hlength⟩ := hgiven.2.1
  obtain ⟨e, he, -⟩ := May.exists_body hnested
  have hlength : active.length = room + 0 := hlength
  omega

end Nesting

/-- A parse succeeds if the start rule matches all of the text within the depth that is allowed. -/
theorem Parser.run_of_within {parser : Parser} {input : Input} {r : RuleId} {t : ParseTree}
    (hg : parser.grammar.WellFormed)
    (h : Within parser.grammar (.ofInput input) parser.config.maxDepth r 0 (some ⟨t, input.length⟩))
    (hrefusal : refusal parser.grammar parser.config input = none) :
    (parser.run .silent () r input).1 = .ok t := by
  have hmeets := Nesting.apply_nil_within hg h (Nat.zero_le _) (Nat.le_refl _) (.here 0)
  rw [run_fst_eq .silent () hrefusal]
  revert hmeets
  generalize Task.apply ⟨parser.grammar, .ofInput input, .silent⟩ parser.config.maxDepth [] r 0
    ⟨.empty, .here 0, ()⟩ = result
  obtain ⟨outcome, s⟩ := result
  cases outcome with
  | ok found =>
      intro hfound
      obtain rfl : found = ⟨t, input.length⟩ := Option.some.inj hfound
      rw [conclude, Subject.length_ofInput, if_pos rfl]
  | backtrack f => exact fun hnone => by contradiction
  | abort e => exact fun habort => habort.2.elim

end Seedling
