import Mathlib.Data.List.Basic
import Seedling.Parse.Trace

/-!
Traces as nests of brackets. An entry of a rule opens a bracket and its match or failure closes
it; what is between them is deeper, but for the growth of the rule's own seed.

A trace is read with a stack, which has a frame for each bracket that is open. Reading is local:
each entry is judged by the stack alone. Main statement: a trace that can be read from the empty
stack to the empty stack is well bracketed as a whole.
-/

namespace Seedling

def Action.isClosing : Action → Bool
  | .matched _ | .failed => true
  | _ => false

def Action.grownTo? : Action → Option Nat
  | .grow stop => some stop
  | _ => none

namespace TraceEntry

structure SameSite (e e' : TraceEntry) : Prop where
  rule : e.rule = e'.rule
  position : e.position = e'.position
  depth : e.depth = e'.depth

instance (e e' : TraceEntry) : Decidable (e.SameSite e') :=
  decidable_of_iff (e.rule = e'.rule ∧ e.position = e'.position ∧ e.depth = e'.depth)
    ⟨fun h => ⟨h.1, h.2.1, h.2.2⟩, fun h => ⟨h.rule, h.position, h.depth⟩⟩

/-- How far the seed of the application has grown that was opened. -/
def growth? (opening e : TraceEntry) : Option Nat :=
  if e.SameSite opening then e.action.grownTo? else none

end TraceEntry

/-- What is inside of an application, between its opening and its closing entry. -/
structure Bracket (opening : TraceEntry) (inside : List TraceEntry)
    (closing : TraceEntry) : Prop where
  opens : opening.action = .enter
  closes : closing.action.isClosing = true
  site : closing.SameSite opening
  deeper : ∀ e ∈ inside, opening.depth < e.depth ∨ (opening.growth? e).isSome = true

/-- An entry of a trace, between `before` and `after`, is inside a bracket of its rule and
position. -/
def Enclosed (before : List TraceEntry) (e : TraceEntry) (after : List TraceEntry) : Prop :=
  ∃ outside opening inside inside' closing rest, before = outside ++ opening :: inside ∧
    after = inside' ++ closing :: rest ∧ Bracket opening (inside ++ e :: inside') closing ∧
    opening.rule = e.rule ∧ opening.position = e.position

/-- A nest of brackets. -/
structure WellBracketed (trace : List TraceEntry) : Prop where
  /-- What is opened is closed, in one way only. -/
  closed : ∀ {before opening after}, trace = before ++ opening :: after → opening.action = .enter →
    ∃ inside closing rest, after = inside ++ closing :: rest ∧ Bracket opening inside closing ∧
      ∀ {inside' closing' rest'}, after = inside' ++ closing' :: rest' →
        Bracket opening inside' closing' → inside' = inside ∧ closing' = closing
  /-- What is closed was opened, in one way only. -/
  opened : ∀ {before closing after}, trace = before ++ closing :: after →
    closing.action.isClosing = true →
    ∃ outside opening inside, before = outside ++ opening :: inside ∧
      Bracket opening inside closing ∧
      ∀ {outside' opening' inside'}, before = outside' ++ opening' :: inside' →
        Bracket opening' inside' closing → opening' = opening ∧ inside' = inside
  /-- What grows is open. -/
  growing : ∀ {before e after}, trace = before ++ e :: after → e.action.grownTo?.isSome = true →
    Enclosed before e after
  /-- Seeds get longer, and the last one is the match. -/
  grown : ∀ {before opening inside closing after},
    trace = before ++ opening :: (inside ++ closing :: after) → Bracket opening inside closing →
    (inside.filterMap opening.growth?).Pairwise (· < ·) ∧
      ∀ stop, (inside.filterMap opening.growth?).getLast? = some stop →
        closing.action = .matched stop
  /-- What is met again is open. -/
  met : ∀ {before e after}, trace = before ++ e :: after → e.action = .reentered →
    Enclosed before e after
  /-- What is entered or replayed is not. -/
  fresh : ∀ {before e after}, trace = before ++ e :: after →
    e.action = .enter ∨ e.action = .replayed → ¬ Enclosed before e after

namespace Bracket

variable {opening opening' closing closing' : TraceEntry} {inside inside' : List TraceEntry}

theorem closing_notMem (h : Bracket opening inside closing)
    (h' : Bracket opening inside' closing') : closing ∉ inside' := by
  intro hmem
  have hsite := h.site
  rcases h'.deeper closing hmem with hlt | hgrown
  · rw [hsite.depth] at hlt
    exact Nat.lt_irrefl _ hlt
  · rw [TraceEntry.growth?, if_pos hsite] at hgrown
    have hcloses := h.closes
    revert hgrown hcloses
    cases closing.action <;> simp [Action.isClosing, Action.grownTo?]

theorem opening_notMem (h : Bracket opening inside closing)
    (h' : Bracket opening' inside' closing) : opening ∉ inside' := by
  intro hmem
  have hdepth : opening.depth = opening'.depth := h.site.depth.symm.trans h'.site.depth
  rcases h'.deeper opening hmem with hlt | hgrown
  · rw [hdepth] at hlt
    exact Nat.lt_irrefl _ hlt
  · rw [TraceEntry.growth?, h.opens] at hgrown
    split at hgrown <;> contradiction

theorem eq_of_append_eq {rest rest' : List TraceEntry} (h : Bracket opening inside closing)
    (h' : Bracket opening inside' closing')
    (heq : inside ++ closing :: rest = inside' ++ closing' :: rest') :
    inside' = inside ∧ closing' = closing := by
  rcases List.append_eq_append_iff.1 heq with ⟨more, rfl, hrest⟩ | ⟨more, rfl, hrest⟩
  · cases more with
    | nil =>
        cases hrest
        exact ⟨List.append_nil _, rfl⟩
    | cons c more =>
        cases hrest
        exact absurd (List.mem_append_right _ List.mem_cons_self) (h.closing_notMem h')
  · cases more with
    | nil =>
        cases hrest
        exact ⟨(List.append_nil _).symm, rfl⟩
    | cons c more =>
        cases hrest
        exact absurd (List.mem_append_right _ List.mem_cons_self) (h'.closing_notMem h)

theorem eq_of_append_eq' {outside outside' : List TraceEntry} (h : Bracket opening inside closing)
    (h' : Bracket opening' inside' closing)
    (heq : outside ++ opening :: inside = outside' ++ opening' :: inside') :
    opening' = opening ∧ inside' = inside := by
  rcases List.append_eq_append_iff.1 heq with ⟨more, rfl, hrest⟩ | ⟨more, rfl, hrest⟩
  · cases more with
    | nil =>
        cases hrest
        exact ⟨rfl, rfl⟩
    | cons c more =>
        cases hrest
        exact absurd (List.mem_append_right _ List.mem_cons_self) (h'.opening_notMem h)
  · cases more with
    | nil =>
        cases hrest
        exact ⟨rfl, rfl⟩
    | cons c more =>
        cases hrest
        exact absurd (List.mem_append_right _ List.mem_cons_self) (h.opening_notMem h')

end Bracket

/-! ### Reading with a stack -/

/-- A bracket that is open: its rule and position, and how far its seed has grown. -/
structure Frame where
  rule : String
  position : Nat
  seed : Option Nat

namespace Frame

def IsAt (f : Frame) (rule : String) (position : Nat) : Prop :=
  f.rule = rule ∧ f.position = position

/-- The entry that has opened a frame on top of the stack. -/
def opening (f : Frame) (st : List Frame) : TraceEntry :=
  ⟨f.position, f.rule, .enter, st.length + 1⟩

/-- What an entry does to the stack. -/
inductive Step : List Frame → TraceEntry → List Frame → Prop where
  | enter {st rule position} : (∀ f ∈ st, ¬ f.IsAt rule position) →
      Step st ⟨position, rule, .enter, st.length + 1⟩ (⟨rule, position, none⟩ :: st)
  | replayed {st rule position} : (∀ f ∈ st, ¬ f.IsAt rule position) →
      Step st ⟨position, rule, .replayed, st.length + 1⟩ st
  | reentered {st rule position f} : f ∈ st → f.IsAt rule position →
      Step st ⟨position, rule, .reentered, st.length + 1⟩ st
  | grow {st f stop} : (∀ seed, f.seed = some seed → seed < stop) →
      Step (f :: st) ⟨f.position, f.rule, .grow stop, st.length + 1⟩
        ({ f with seed := some stop } :: st)
  | matched {st f stop} : (∀ seed, f.seed = some seed → stop = seed) →
      Step (f :: st) ⟨f.position, f.rule, .matched stop, st.length + 1⟩ st
  | failed {st f} : f.seed = none →
      Step (f :: st) ⟨f.position, f.rule, .failed, st.length + 1⟩ st

/-- What a trace does to the stack. -/
inductive Run : List Frame → List TraceEntry → List Frame → Prop where
  | nil {st} : Run st [] st
  | cons {st e st' trace st''} : Step st e st' → Run st' trace st'' → Run st (e :: trace) st''

/-- A run whose stacks are all higher than `n`. -/
inductive Stays (n : Nat) : List Frame → List TraceEntry → List Frame → Prop where
  | nil {st} : n < st.length → Stays n st [] st
  | cons {st e st' trace st''} : n < st.length → Step st e st' → Stays n st' trace st'' →
      Stays n st (e :: trace) st''

variable {n : Nat} {e c : TraceEntry} {f : Frame} {st st' st'' low above : List Frame}
  {l l' inside : List TraceEntry}

theorem Run.append (h : Run st l st') (h' : Run st' l' st'') : Run st (l ++ l') st'' := by
  induction h with
  | nil => exact h'
  | cons hstep _ ih => exact .cons hstep (ih h')

theorem Run.exists_append (h : Run st (l ++ l') st'') : ∃ st', Run st l st' ∧ Run st' l' st'' := by
  induction l generalizing st with
  | nil => exact ⟨st, .nil, h⟩
  | cons e l ih =>
      cases h with
      | cons hstep h =>
          obtain ⟨st', hl, hl'⟩ := ih h
          exact ⟨st', .cons hstep hl, hl'⟩

theorem Run.exists_cons (h : Run st (l ++ e :: l') st'') :
    ∃ mid mid', Run st l mid ∧ Step mid e mid' ∧ Run mid' l' st'' := by
  obtain ⟨mid, hl, h⟩ := h.exists_append
  cases h with
  | cons hstep h => exact ⟨mid, _, hl, hstep, h⟩

theorem Stays.lt (h : Stays n st l st') : n < st.length ∧ n < st'.length := by
  induction h with
  | nil hlt => exact ⟨hlt, hlt⟩
  | cons hlt _ _ ih => exact ⟨hlt, ih.2⟩

theorem Stays.append (h : Stays n st l st') (h' : Stays n st' l' st'') :
    Stays n st (l ++ l') st'' := by
  induction h with
  | nil => exact h'
  | cons hlt hstep _ ih => exact .cons hlt hstep (ih h')

theorem Stays.exists_cons (h : Stays n st (l ++ e :: l') st'') :
    ∃ mid mid', Stays n st l mid ∧ Step mid e mid' ∧ Stays n mid' l' st'' := by
  induction l generalizing st with
  | nil =>
      cases h with
      | cons hlt hstep h => exact ⟨st, _, .nil hlt, hstep, h⟩
  | cons e₁ l ih =>
      cases h with
      | cons hlt hstep h =>
          obtain ⟨mid, mid', hl, hstep', hl'⟩ := ih h
          exact ⟨mid, mid', .cons hlt hstep hl, hstep', hl'⟩

theorem Step.length_le (h : Step st e st') :
    st.length ≤ st'.length + 1 ∧ st'.length ≤ st.length + 1 := by
  cases h with
  | replayed | reentered => omega
  | enter | grow | matched | failed =>
      simp only [List.length_cons]
      omega

/-- The first time that the stack is as low as `n`. -/
theorem Run.exists_return (h : Run st l st') (hlt : n < st.length) (hle : st'.length ≤ n) :
    ∃ inside e rest mid mid', l = inside ++ e :: rest ∧ Stays n st inside mid ∧ Step mid e mid' ∧
      mid'.length = n := by
  induction h with
  | nil => omega
  | @cons st e st₁ l st' hstep _ ih =>
      by_cases hlow : n < st₁.length
      · obtain ⟨inside, e', rest, mid, mid', rfl, hstays, hreturn⟩ := ih hlow hle
        exact ⟨e :: inside, e', rest, mid, mid', rfl, .cons hlt hstep hstays, hreturn⟩
      · have := hstep.length_le.1
        exact ⟨[], e, l, st, st₁, rfl, .nil hlt, hstep, by omega⟩

/-- The last time that the stack was as low as `n`, if ever, a frame was put on it. -/
theorem Run.exists_opening (h : Run st l st') (hlt : n < st'.length) :
    Stays n st l st' ∨ ∃ outside inside low f, l = outside ++ f.opening low :: inside ∧
      Run st outside low ∧ f.seed = none ∧ low.length = n ∧ Stays n (f :: low) inside st' := by
  induction h with
  | nil => exact .inl (.nil hlt)
  | @cons st e st₁ l st' hstep _ ih =>
      rcases ih hlt with hstays | ⟨outside, inside, low, f, rfl, hrun, hopen⟩
      · by_cases hhigh : n < st.length
        · exact .inl (.cons hhigh hstep hstays)
        -- Only an opening entry makes the stack higher.
        · have hlt₁ := hstays.lt.1
          cases hstep with
          | enter =>
              rw [List.length_cons] at hlt₁
              exact .inr ⟨[], l, st, _, rfl, .nil, rfl, by omega, hstays⟩
          | replayed | reentered => omega
          | grow | matched | failed =>
              simp only [List.length_cons] at hlt₁ hhigh
              omega
      · exact .inr ⟨e :: outside, inside, low, f, rfl, .cons hstep hrun, hopen⟩

/-! ### The frame of an application -/

/-- What may happen to a frame while it is open: its seed grows, or something happens above of
it. -/
theorem Step.keeps_frame (h : Step (above ++ f :: low) e st') (hlt : low.length < st'.length) :
    ∃ above' f', st' = above' ++ f' :: low ∧ f'.IsAt f.rule f.position ∧
      ((low.length + 1 < e.depth ∧ f' = f) ∨
        ∃ stop, e = ⟨f.position, f.rule, .grow stop, low.length + 1⟩ ∧ f'.seed = some stop ∧
          ∀ seed, f.seed = some seed → seed < stop) := by
  generalize hstack : above ++ f :: low = stack at h
  have hlength := congrArg List.length hstack
  rw [List.length_append, List.length_cons] at hlength
  cases h with
  | @enter _ rule position =>
      refine ⟨⟨rule, position, none⟩ :: above, f, by rw [← hstack]; rfl, ⟨rfl, rfl⟩, .inl ⟨?_, rfl⟩⟩
      dsimp only
      omega
  | replayed | reentered =>
      refine ⟨above, f, hstack.symm, ⟨rfl, rfl⟩, .inl ⟨?_, rfl⟩⟩
      dsimp only
      omega
  | @grow rest top stop hlonger =>
      cases above with
      | nil =>
          cases hstack
          exact ⟨[], _, rfl, ⟨rfl, rfl⟩, .inr ⟨stop, rfl, rfl, hlonger⟩⟩
      | cons first above =>
          rw [List.cons_append] at hstack
          obtain ⟨rfl, rfl⟩ := List.cons.inj hstack
          refine ⟨{ first with seed := some stop } :: above, f, rfl, ⟨rfl, rfl⟩, .inl ⟨?_, rfl⟩⟩
          simp only [List.length_append, List.length_cons]
          omega
  -- The frame on top is closed, and this is another one, since the stack would be too low
  -- without it.
  | matched | failed =>
      cases above with
      | nil =>
          cases hstack
          exact absurd hlt (Nat.lt_irrefl _)
      | cons first above =>
          rw [List.cons_append] at hstack
          obtain ⟨rfl, rfl⟩ := List.cons.inj hstack
          refine ⟨above, f, rfl, ⟨rfl, rfl⟩, .inl ⟨?_, rfl⟩⟩
          simp only [List.length_append, List.length_cons]
          omega

/-- While a frame is open it stays, what happens is deeper, and its seed is the last it has
grown to. -/
theorem Stays.keeps_frame (h : Stays low.length (above ++ f :: low) inside st') :
    ∃ above' f', st' = above' ++ f' :: low ∧ f'.IsAt f.rule f.position ∧
      (∀ e ∈ inside, low.length + 1 < e.depth ∨ ((f.opening low).growth? e).isSome = true) ∧
      (f.seed.toList ++ inside.filterMap (f.opening low).growth?).Pairwise (· < ·) ∧
      f'.seed = (f.seed.toList ++ inside.filterMap (f.opening low).growth?).getLast? := by
  generalize hstack : above ++ f :: low = stack at h
  induction h generalizing above f with
  | nil =>
      subst hstack
      refine ⟨above, f, rfl, ⟨rfl, rfl⟩, List.forall_mem_nil _, ?_⟩
      cases f.seed <;> simp
  | @cons _ e st₁ l _ _ hstep hstays ih =>
      subst hstack
      obtain ⟨above₁, f₁, rfl, hat, hmove⟩ := hstep.keeps_frame hstays.lt.1
      obtain ⟨above', f', hst', hat', hdeeper, hpairs, hseed⟩ := ih rfl
      have hopening : f₁.opening low = f.opening low := by rw [opening, opening, hat.1, hat.2]
      rw [hopening] at hdeeper hpairs hseed
      refine ⟨above', f', hst', ⟨hat'.1.trans hat.1, hat'.2.trans hat.2⟩, ?_⟩
      -- The first entry is deeper and leaves the seed alone, or it is the growth of the seed.
      rcases hmove with ⟨hdepth, rfl⟩ | ⟨stop, rfl, hgrown, hlonger⟩
      · have hnone : (f₁.opening low).growth? e = none := by
          rw [TraceEntry.growth?, if_neg]
          intro hsite
          exact Nat.ne_of_gt hdepth hsite.depth
        rw [List.filterMap_cons_none hnone]
        exact ⟨List.forall_mem_cons.2 ⟨.inl hdepth, hdeeper⟩, hpairs, hseed⟩
      · have hsome : (f.opening low).growth? ⟨f.position, f.rule, .grow stop, low.length + 1⟩ =
            some stop := by
          rw [TraceEntry.growth?, if_pos ⟨rfl, rfl, rfl⟩]
          rfl
        rw [hgrown] at hpairs hseed
        rw [List.filterMap_cons_some hsome]
        refine ⟨List.forall_mem_cons.2 ⟨.inr (by rw [hsome]; rfl), hdeeper⟩, ?_⟩
        cases hold : f.seed with
        | none => exact ⟨hpairs, hseed⟩
        | some seed =>
            have hlt := hlonger seed hold
            refine ⟨List.pairwise_cons.2 ⟨fun stop' hstop' => ?_, hpairs⟩, ?_⟩
            · rcases List.mem_cons.1 hstop' with rfl | hstop'
              · exact hlt
              · exact Nat.lt_trans hlt ((List.pairwise_cons.1 hpairs).1 stop' hstop')
            · rw [hseed]
              rfl

theorem Stays.bracket (h : Stays low.length (f :: low) inside st') (hstep : Step st' c st'')
    (hlength : st''.length = low.length) :
    Bracket (f.opening low) inside c ∧
      (f.seed = none → (inside.filterMap (f.opening low).growth?).Pairwise (· < ·) ∧
        ∀ stop, (inside.filterMap (f.opening low).growth?).getLast? = some stop →
          c.action = .matched stop) := by
  obtain ⟨above, f', rfl, hat, hdeeper, hpairs, hseed⟩ := @Stays.keeps_frame f st' low [] inside h
  have hlow := h.lt.2
  have hclosing : above = [] ∧ c.action.isClosing = true ∧ c.SameSite (f.opening low) ∧
      ∀ stop, f'.seed = some stop → c.action = .matched stop := by
    generalize hstack : above ++ f' :: low = stack at hstep hlow
    cases hstep with
    | enter | grow =>
        simp only [List.length_cons] at hlength hlow
        omega
    | replayed | reentered => omega
    | @matched _ top stop hseed' =>
        have hsame : above ++ f' :: low = [] ++ top :: st'' := hstack
        obtain ⟨rfl, htop⟩ := List.append_inj' hsame (by simp only [List.length_cons, hlength])
        cases htop
        exact ⟨rfl, rfl, ⟨hat.1, hat.2, rfl⟩, fun seed hs => by rw [hseed' seed hs]⟩
    | @failed _ top hseed' =>
        have hsame : above ++ f' :: low = [] ++ top :: st'' := hstack
        obtain ⟨rfl, htop⟩ := List.append_inj' hsame (by simp only [List.length_cons, hlength])
        cases htop
        refine ⟨rfl, rfl, ⟨hat.1, hat.2, rfl⟩, fun seed hs => ?_⟩
        cases hseed'.symm.trans hs
  obtain ⟨rfl, hcloses, hsite, hmatched⟩ := hclosing
  refine ⟨⟨rfl, hcloses, hsite, hdeeper⟩, fun hnone => ?_⟩
  rw [hnone] at hpairs hseed
  exact ⟨hpairs, fun stop hstop => hmatched stop (hseed.trans hstop)⟩

theorem Step.opened (h : Step st e st') (hopens : e.action = .enter) :
    ∃ f : Frame, st' = f :: st ∧ e = f.opening st ∧ f.seed = none := by
  cases h with
  | enter => exact ⟨_, rfl, rfl, rfl⟩
  | replayed | reentered | grow | matched | failed => contradiction

theorem Step.closed (h : Step st e st') (hcloses : e.action.isClosing = true) :
    ∃ f : Frame, st = f :: st' := by
  cases h with
  | matched | failed => exact ⟨_, rfl⟩
  | enter | replayed | reentered | grow => contradiction

theorem Run.exists_frame (h : Run [] l (above ++ f :: low)) :
    ∃ outside inside f₀, l = outside ++ f₀.opening low :: inside ∧ f₀.seed = none ∧
      f.IsAt f₀.rule f₀.position ∧ Stays low.length (f₀ :: low) inside (above ++ f :: low) := by
  have hlt : low.length < (above ++ f :: low).length := by
    rw [List.length_append, List.length_cons]
    omega
  rcases h.exists_opening hlt with hstays | ⟨outside, inside, low', f₀, rfl, -, hnone, hlow, hstays⟩
  · exact absurd hstays.lt.1 (Nat.not_lt_zero _)
  · rw [← hlow] at hstays
    obtain ⟨above', f', hst, hat, -⟩ := @Stays.keeps_frame f₀ _ low' [] inside hstays
    obtain ⟨-, htail⟩ := List.append_inj' hst (by simp only [List.length_cons, hlow])
    cases htail
    exact ⟨outside, inside, f₀, rfl, hnone, hat, hstays⟩

/-! ### Whole traces -/

section Traces

variable {before after : List TraceEntry} {opening closing : TraceEntry}

theorem Run.exists_closing (h : Run [] (before ++ opening :: after) [])
    (hopens : opening.action = .enter) :
    ∃ low f inside closing rest mid mid', after = inside ++ closing :: rest ∧
      opening = f.opening low ∧
      f.seed = none ∧ Stays low.length (f :: low) inside mid ∧ Step mid closing mid' ∧
      mid'.length = low.length := by
  obtain ⟨low, _, -, hstep, hafter⟩ := h.exists_cons
  obtain ⟨f, rfl, rfl, hnone⟩ := hstep.opened hopens
  obtain ⟨inside, closing, rest, mid, mid', rfl, hstays, hclose, hlength⟩ :=
    hafter.exists_return (Nat.lt_succ_self low.length) (Nat.zero_le _)
  exact ⟨low, f, inside, closing, rest, mid, mid', rfl, rfl, hnone, hstays, hclose, hlength⟩

/-- A bracket of a trace is the frame of its opening entry. -/
theorem Run.stays_of_bracket (h : Run [] (before ++ opening :: (inside ++ closing :: after)) [])
    (hbracket : Bracket opening inside closing) :
    ∃ low f mid mid', opening = f.opening low ∧ f.seed = none ∧
      Stays low.length (f :: low) inside mid ∧
      Step mid closing mid' ∧ mid'.length = low.length := by
  obtain ⟨low, f, inside', closing', rest, mid, mid', hafter, rfl, hnone, hstays,
    hclose, hlength⟩ :=
    h.exists_closing hbracket.opens
  obtain ⟨rfl, rfl⟩ := hbracket.eq_of_append_eq (hstays.bracket hclose hlength).1 hafter
  exact ⟨low, f, mid, mid', rfl, hnone, hstays, hclose, hlength⟩

theorem Run.enclosed (h : Run [] before (above ++ f :: low)) (hat : f.IsAt e.rule e.position)
    (hstep : Step (above ++ f :: low) e st) (hlt : low.length < st.length)
    (hafter : Run st after []) : Enclosed before e after := by
  obtain ⟨outside, inside, f₀, rfl, -, hsame, hstays⟩ := h.exists_frame
  obtain ⟨inside', closing, rest, mid, mid', rfl, hstays', hclose, hlength⟩ :=
    hafter.exists_return hlt (Nat.zero_le _)
  have hwhole := hstays.append (.cons hstays.lt.2 hstep hstays')
  exact ⟨outside, f₀.opening low, inside, inside', closing, rest, rfl, rfl,
    (hwhole.bracket hclose hlength).1, hsame.1.symm.trans hat.1, hsame.2.symm.trans hat.2⟩

end Traces

end Frame

/-- A trace that can be read is well bracketed. -/
theorem wellBracketed_of_run {trace : List TraceEntry} (h : Frame.Run [] trace []) :
    WellBracketed trace where
  closed := by
    rintro before opening after rfl hopens
    obtain ⟨low, f, inside, closing, rest, mid, mid', rfl, rfl, -, hstays, hclose, hlength⟩ :=
      h.exists_closing hopens
    have hbracket := (hstays.bracket hclose hlength).1
    exact ⟨inside, closing, rest, rfl, hbracket, fun heq h' => hbracket.eq_of_append_eq h' heq⟩
  opened := by
    rintro before closing after rfl hcloses
    obtain ⟨st, st', hbefore, hstep, -⟩ := h.exists_cons
    obtain ⟨f, rfl⟩ := hstep.closed hcloses
    obtain ⟨outside, inside, f₀, rfl, -, -, hstays⟩ :=
      @Frame.Run.exists_frame f st' [] before hbefore
    have hbracket := (hstays.bracket hstep rfl).1
    exact ⟨outside, _, inside, rfl, hbracket, fun heq h' => hbracket.eq_of_append_eq' h' heq⟩
  growing := by
    rintro before e after rfl hgrown
    obtain ⟨st, st', hbefore, hstep, hafter⟩ := h.exists_cons
    cases hstep with
    | @grow rest f stop hlonger =>
        exact @Frame.Run.enclosed _ f _ rest [] _ _ hbefore ⟨rfl, rfl⟩ (.grow hlonger)
          (Nat.lt_succ_self _)
          hafter
    | enter | replayed | reentered | matched | failed => contradiction
  grown := by
    rintro before opening inside closing after rfl hbracket
    obtain ⟨low, f, mid, mid', rfl, hnone, hstays, hclose, hlength⟩ := h.stays_of_bracket hbracket
    exact (hstays.bracket hclose hlength).2 hnone
  met := by
    rintro before e after rfl hmet
    obtain ⟨st, st', hbefore, hstep, hafter⟩ := h.exists_cons
    cases hstep with
    | reentered hmem hat =>
        obtain ⟨above, low, rfl⟩ := List.append_of_mem hmem
        refine hbefore.enclosed hat (.reentered hmem hat) ?_ hafter
        rw [List.length_append, List.length_cons]
        omega
    | enter | replayed | grow | matched | failed => contradiction
  fresh := by
    rintro before e after rfl hfresh
    rintro ⟨outside, opening, inside, inside', closing, rest, rfl, rfl, hbracket, hrule, hposition⟩
    have h : Frame.Run []
        (outside ++ opening :: ((inside ++ e :: inside') ++ closing :: rest)) [] := by
      simpa using h
    obtain ⟨low, f, mid, mid', rfl, -, hstays, -⟩ := h.stays_of_bracket hbracket
    obtain ⟨st, st', hstays', hstep, -⟩ := hstays.exists_cons
    obtain ⟨above, f', rfl, hat, -⟩ := @Frame.Stays.keeps_frame f _ low [] inside hstays'
    have hmem : f' ∈ above ++ f' :: low := List.mem_append_right _ List.mem_cons_self
    have hat' : f'.IsAt e.rule e.position := ⟨hat.1.trans hrule, hat.2.trans hposition⟩
    generalize above ++ f' :: low = stack at hmem hstep
    cases hstep with
    | enter hnot | replayed hnot => exact hnot f' hmem hat'
    | reentered | grow | matched | failed => rcases hfresh with hfresh | hfresh <;> contradiction

end Seedling
