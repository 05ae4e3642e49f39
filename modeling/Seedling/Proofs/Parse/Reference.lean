import Seedling.Proofs.Parse.LeftEdge

/-!
What it means to apply a rule, without a memo table. A rule that is being evaluated at a
position answers there with its seed. Any other application starts from no seed and replaces it
by the next stage, the body evaluated with that seed, as long as the stages get longer.

An application depends only on the seeds that it can come to: those of rules on its left edge,
at its own position, and those further on.
-/

namespace Seedling

abbrev Seeds := RuleId → Nat → Option (Option Found)

namespace Seeds

def none : Seeds := fun _ _ => .none

def set (ρ : Seeds) (r : RuleId) (p : Nat) (seed : Option Found) : Seeds :=
  fun r' q => if r' = r ∧ q = p then some seed else ρ r' q

variable (ρ : Seeds) (r : RuleId) (p : Nat) (seed : Option Found)

@[simp] theorem set_self : ρ.set r p seed r p = some seed := by
  rw [set, if_pos ⟨rfl, rfl⟩]

theorem set_of_ne {r' : RuleId} {q : Nat} (h : ¬ (r' = r ∧ q = p)) :
    ρ.set r p seed r' q = ρ r' q := by
  rw [set, if_neg h]

end Seeds

/-- `Applies g subject ρ r p o`: applied at `p` while the rules of `ρ` are in evaluation, rule
`r` comes to `o`. The answers that the stages rest on are applications themselves. -/
inductive Applies (g : Grammar) (subject : Subject) :
    Seeds → RuleId → Nat → Option Found → Prop where
  | seed {ρ r p o} : ρ r p = some o → Applies g subject ρ r p o
  | grown {ρ : Seeds} {r p o} (B : Option Found → Answers) :
      ρ r p = none →
      (∀ seed r' q o', B seed r' q o' → Applies g subject (ρ.set r p seed) r' q o') →
      GrowsTo (fun seed => Body g subject (B seed) r p) none o →
      Applies g subject ρ r p o

section Growth

variable {stage stage' : Option Found → Option Found → Prop} {seed o : Option Found}

/-- Stages may be exchanged and a property of seeds followed along the growth. -/
theorem GrowsTo.congr {P : Option Found → Prop} (h : GrowsTo stage seed o) (hseed : P seed)
    (hstage : ∀ seed o, P seed → stage seed o → stage' seed o ∧ P o) :
    GrowsTo stage' seed o ∧ P o := by
  induction h with
  | settled hs hout => exact ⟨.settled (hstage _ _ hseed hs).1 hout, hseed⟩
  | grown hs hout _ ih =>
      obtain ⟨hs', hP⟩ := hstage _ _ hseed hs
      obtain ⟨hgrow, ho⟩ := ih hP
      exact ⟨.grown hs' hout hgrow, ho⟩

theorem GrowsTo.invariant {P : Option Found → Prop} (h : GrowsTo stage seed o) (hseed : P seed)
    (hstage : ∀ seed o, P seed → stage seed o → P o) : P o :=
  (h.congr hseed fun seed o hs hstep => ⟨hstep, hstage seed o hs hstep⟩).2

end Growth

namespace Applies

variable {g : Grammar} {subject : Subject} {ρ : Seeds} {r : RuleId} {p : Nat} {o o' : Option Found}

/-- A rule that is not in evaluation grows from nothing, by its own body. -/
theorem iff_growsTo (hρ : ρ r p = none) :
    Applies g subject ρ r p o ↔
      GrowsTo (fun seed => Body g subject (Applies g subject (ρ.set r p seed)) r p) none o := by
  constructor
  · intro h
    cases h with
    | seed hseed =>
        rw [hρ] at hseed
        contradiction
    | grown B _ hB hgrow => exact hgrow.mono fun seed o hbody => hbody.mono (hB seed)
  · exact .grown _ hρ fun _ _ _ _ h => h

theorem unique (h : Applies g subject ρ r p o) (h' : Applies g subject ρ r p o') : o = o' := by
  induction h generalizing o' with
  | seed hseed =>
      cases h' with
      | seed hseed' => exact Option.some.inj (hseed.symm.trans hseed')
      | grown _ hnone => cases hseed.symm.trans hnone
  | grown B hnone _ hgrow ih =>
      cases h' with
      | seed hseed' => cases hnone.symm.trans hseed'
      | grown B' _ hB' hgrow' =>
          refine hgrow.unique hgrow' fun seed o o' hs hs' => ?_
          exact hs.unique hs' fun r' q o o' ha ha' => ih seed r' q o ha (hB' seed r' q o' ha')

end Applies

/-! ### What the left edge says of applications -/

section Sound

variable {g : Grammar} (R : Region g) (input : Input)

/-- A match is inside the input, and consumes something unless the rule is nullable. -/
def SoundAt (r : RuleId) (q : Nat) (o : Option Found) : Prop :=
  ∀ f, o = some f → q ≤ input.length →
    (q ≤ f.stop ∧ f.stop ≤ input.length) ∧
      (R.rules r → f.stop = q →
        ∃ rule, g.rules[r]? = some rule ∧ Grammar.isNullableIn g.nullable rule.body = true)

def Seeds.Sound (ρ : Seeds) : Prop := ∀ r q o, ρ r q = some o → SoundAt R input r q o

variable {R} {input} {A : Answers} {ρ : Seeds} {r : RuleId} {p : Nat} {o : Option Found}

theorem soundAt_none : SoundAt R input r p none := fun _ h => by contradiction

theorem Seeds.sound_none : Seeds.none.Sound R input := fun _ _ _ h => by contradiction

theorem Seeds.Sound.set (hρ : ρ.Sound R input) {seed : Option Found}
    (hseed : SoundAt R input r p seed) : (ρ.set r p seed).Sound R input := by
  intro r' q o h
  rw [Seeds.set] at h
  split at h
  · rename_i hsite
    obtain ⟨rfl, rfl⟩ := hsite
    cases h
    exact hseed
  · exact hρ r' q o h

theorem Body.sound (hg : g.WellFormed) (hR : R.Satisfiable)
    (hA : ∀ r' q o, A r' q o → SoundAt R input r' q o)
    (h : Body g (.ofInput input) A r p o) : SoundAt R input r p o := by
  obtain ⟨rule, hrule, x, hx, rfl⟩ := h
  have hbounded : A.Bounded input.length := fun r' q f hq ha => (hA r' q _ ha f rfl hq).1
  have hnull : A.Nullable R input.length := fun r' q f hr hq ha => (hA r' q _ ha f rfl hq).2 hr
  intro f hf hp
  obtain ⟨y, rfl, rfl⟩ := Option.map_eq_some_iff.1 hf
  refine ⟨hx.bounds hg hbounded y rfl hp, fun hr hstop => ⟨rule, hrule, ?_⟩⟩
  exact hx.nullable hg hR hbounded hnull y rfl hstop hp (R.body hr hrule)

theorem Applies.sound (hg : g.WellFormed) (hR : R.Satisfiable)
    (h : Applies g (.ofInput input) ρ r p o) (hρ : ρ.Sound R input) : SoundAt R input r p o := by
  induction h with
  | seed hseed => exact hρ _ _ _ hseed
  | grown B _ _ hgrow ih =>
      refine hgrow.invariant (P := SoundAt R input _ _) soundAt_none fun seed o hseed hs => ?_
      exact hs.sound hg hR fun r' q o ha => ih seed r' q o ha (hρ.set hseed)

/-- The body of a rule of the region asks, at its own position, only for rules on the left edge. -/
theorem BodyVisits.near (hg : g.WellFormed) (hR : R.Satisfiable)
    (hA : ∀ r' q o, A r' q o → SoundAt R input r' q o) (hr : R.rules r) (hp : p ≤ input.length)
    {r' : RuleId} {q : Nat} (h : BodyVisits g (.ofInput input) A r p r' q) :
    R.rules r' ∧ q ≤ input.length ∧ (p < q ∨ q = p ∧ r' ∈ g.reachOf r) := by
  obtain ⟨rule, hrule, hv⟩ := h
  have hbounded : A.Bounded input.length := fun r' q f hq ha => (hA r' q _ ha f rfl hq).1
  have hnull : A.Nullable R input.length := fun r' q f hr hq ha => (hA r' q _ ha f rfl hq).2 hr
  obtain ⟨hle, hlen⟩ := hv.bounds hg hbounded hp
  refine ⟨hv.region (R.body hr hrule), hlen, ?_⟩
  rcases Nat.lt_or_eq_of_le hle with hlt | heq
  · exact .inl hlt
  · refine .inr ⟨heq.symm, hg.mem_reachOf_of_call ?_⟩
    rw [Grammar.ruleCalls, hrule]
    exact hv.calls hg hR hbounded hnull hp (R.body hr hrule) heq.symm

end Sound

/-! ### Independence -/

section Independence

variable {g : Grammar} {R : Region g} {input : Input} {ρ ρ' : Seeds} {r : RuleId} {p : Nat}
  {o : Option Found}

/-- The seeds agree wherever an application of `r` at `p` may look. -/
def Agree (g : Grammar) (r : RuleId) (p : Nat) (ρ ρ' : Seeds) : Prop :=
  ∀ r' q, (p < q ∨ q = p ∧ (r' = r ∨ r' ∈ g.reachOf r)) → ρ r' q = ρ' r' q

theorem Agree.set (hg : g.WellFormed) (h : Agree g r p ρ ρ') (seed : Option Found) {r' : RuleId}
    {q : Nat} (hnear : p < q ∨ q = p ∧ r' ∈ g.reachOf r) :
    Agree g r' q (ρ.set r p seed) (ρ'.set r p seed) := by
  intro r'' q' hfar
  rw [Seeds.set, Seeds.set]
  split
  · rfl
  · apply h
    rcases hnear with hlt | ⟨rfl, hreach⟩
    · left
      rcases hfar with hlt' | ⟨rfl, -⟩
      · exact Nat.lt_trans hlt hlt'
      · exact hlt
    · rcases hfar with hlt' | ⟨rfl, rfl | hreach'⟩
      · exact .inl hlt'
      · exact .inr ⟨rfl, .inr hreach⟩
      · exact .inr ⟨rfl, .inr (hg.reachOf_trans hreach hreach')⟩

/-- An application rests on the seeds that it may look at and on no others. -/
theorem Applies.congr (hg : g.WellFormed) (hR : R.Satisfiable)
    (h : Applies g (.ofInput input) ρ r p o) (hρ : ρ.Sound R input) (hr : R.rules r)
    (hp : p ≤ input.length) (hagree : Agree g r p ρ ρ') :
    Applies g (.ofInput input) ρ' r p o := by
  induction h generalizing ρ' with
  | @seed ρ r p o hseed => exact .seed (hagree r p (.inr ⟨rfl, .inl rfl⟩) ▸ hseed)
  | @grown ρ r p o B hnone hB hgrow ih =>
      -- A seed that comes up is sound, which is what confines the visits of the next stage.
      have hsound : ∀ seed, SoundAt R input r p seed →
          ∀ r' q o, B seed r' q o → SoundAt R input r' q o := fun seed hseed r' q o ha =>
        (hB seed r' q o ha).sound hg hR (hρ.set hseed)
      refine .grown (fun seed r' q o => B seed r' q o ∧ SoundAt R input r p seed ∧ R.rules r' ∧
        q ≤ input.length ∧ (p < q ∨ q = p ∧ r' ∈ g.reachOf r)) ?_ ?_ ?_
      · rw [← hagree r p (.inr ⟨rfl, .inl rfl⟩), hnone]
      · rintro seed r' q o ⟨ha, hseed, hr', hq, hnear⟩
        exact ih seed r' q o ha (hρ.set hseed) hr' hq (hagree.set hg seed hnear)
      · refine (hgrow.congr (P := SoundAt R input r p) soundAt_none fun seed o hseed hs => ?_).1
        refine ⟨hs.congr fun r' q o hv ha => ?_, hs.sound hg hR (hsound seed hseed)⟩
        obtain ⟨hr', hq, hnear⟩ := hv.near hg hR (hsound seed hseed) hr hp
        exact ⟨ha, hseed, hr', hq, hnear⟩

end Independence

end Seedling
