import Seedling.Proofs.Parse.Meaning
import Seedling.Proofs.Parse.Terminal

/-!
The left edge is sound for what expressions mean: an expression that matches without consuming
is nullable, and a rule that is asked for before anything was consumed is a left call. This
needs that no repetition in question is allowed no match and yet told to have some.
-/

namespace Seedling

def Answers.Bounded (A : Answers) (length : Nat) : Prop :=
  ∀ r q f, q ≤ length → A r q (some f) → q ≤ f.stop ∧ f.stop ≤ length

section Bounds

variable {g : Grammar} {input : Input} {A : Answers} {form : Form} {p : Nat}

theorem Meaning.bounds (hg : g.WellFormed) (hA : A.Bounded input.length) {o : Option Piece}
    (h : Meaning g (.ofInput input) A form p o) :
    ∀ x, o = some x → p ≤ input.length → p ≤ x.stop ∧ x.stop ≤ input.length := by
  have hterminal : ∀ {id p} x, ((Subject.ofInput input).matchTerminal g id p).map
      (fun m => Piece.single m.1 m.2) = some x → p ≤ input.length →
      p ≤ x.stop ∧ x.stop ≤ input.length := by
    intro id p x hx hp
    obtain ⟨⟨stop, leaf⟩, hm, rfl⟩ := Option.map_eq_some_iff.1 hx
    obtain ⟨hle, hlen, -⟩ := hg.matchTerminal_stop hp hm #[]
    exact ⟨hle, hlen⟩
  induction h with
  | atom _ _ ih | sequence _ ih | choice _ ih | repetition _ ih => exact ih
  | rule ha =>
      intro x hx hp
      obtain ⟨f, rfl, rfl⟩ := Option.map_eq_some_iff.1 hx
      exact hA _ _ _ hp ha
  | literal | pattern | token => exact hterminal
  | lookahead =>
      intro x hx hp
      split at hx
      · cases hx
        exact ⟨Nat.le_refl _, hp⟩
      · contradiction
  | discard _ ih =>
      intro x hx hp
      obtain ⟨y, rfl, rfl⟩ := Option.map_eq_some_iff.1 hx
      exact ih y rfl hp
  | splice _ ih =>
      intro x hx hp
      obtain ⟨y, rfl, rfl⟩ := Option.map_eq_some_iff.1 hx
      exact ih y rfl hp
  | done | full | enough =>
      intro x hx hp
      cases hx
      exact ⟨Nat.le_refl _, hp⟩
  | item _ _ ihx ih =>
      intro z hz hp
      obtain ⟨y, rfl, rfl⟩ := Option.map_eq_some_iff.1 hz
      obtain ⟨hle, hlen⟩ := ihx _ rfl hp
      obtain ⟨hle', hlen'⟩ := ih y rfl hlen
      exact ⟨Nat.le_trans hle hle', hlen'⟩
  | more _ _ _ _ ihx ih =>
      intro z hz hp
      obtain ⟨y, rfl, rfl⟩ := Option.map_eq_some_iff.1 hz
      obtain ⟨hle, hlen⟩ := ihx _ rfl hp
      obtain ⟨hle', hlen'⟩ := ih y rfl hlen
      exact ⟨Nat.le_trans hle hle', hlen'⟩
  | broken | exhausted | tooFew => simp
  | taken _ ih => exact ih
  | passed _ _ _ ih => exact ih
  | empty _ _ _ ih => exact ih

theorem Visits.bounds (hg : g.WellFormed) (hA : A.Bounded input.length) {r : RuleId} {q : Nat}
    (h : Visits g (.ofInput input) A form p r q) (hp : p ≤ input.length) :
    p ≤ q ∧ q ≤ input.length := by
  induction h with
  | rule => exact ⟨Nat.le_refl _, hp⟩
  | atom _ _ ih | sequence _ ih | choice _ ih | repetition _ ih | lookahead _ ih | discard _ ih
  | splice _ ih | item _ ih | alternative _ ih | alternatives _ _ ih | next _ _ ih => exact ih hp
  | items hx _ ih | more _ hx _ _ ih =>
      obtain ⟨hle, hlen⟩ := hx.bounds hg hA _ rfl hp
      obtain ⟨hle', hlen'⟩ := ih hlen
      exact ⟨Nat.le_trans hle hle', hlen'⟩

end Bounds

/-! ### Regions -/

/-- A part of a grammar that refers to nothing outside of it. -/
structure Region (g : Grammar) where
  rules : RuleId → Prop
  atoms : AtomId → Prop
  body : ∀ {r : RuleId} {rule : Rule}, rules r → g.rules[r]? = some rule → atoms rule.body
  child : ∀ {id : AtomId} {atom : Atom}, atoms id → g.atoms[id]? = some atom →
    ∀ c ∈ atom.children, atoms c
  call : ∀ {id : AtomId} {r : RuleId}, atoms id → g.atoms[id]? = some (.rule r) → rules r

namespace Region

variable {g : Grammar}

/-- The expression is made of atoms of the region. -/
def Has (R : Region g) : Form → Prop
  | .atom id => R.atoms id
  | .operator id atom => R.atoms id ∧ g.atoms[id]? = some atom
  | .items atoms => ∀ a ∈ atoms, R.atoms a
  | .alternatives atoms => ∀ a ∈ atoms, R.atoms a
  | .run a _ _ _ => R.atoms a

/-- No repetition of the region is allowed no match and yet told to have some. -/
def Satisfiable (R : Region g) : Prop :=
  ∀ {id a : AtomId} {min : Nat}, R.atoms id → g.atoms[id]? = some (.repetition a min (some 0)) →
    min = 0

end Region

/-- All numbers that are in range. -/
def Grammar.WellFormed.region {g : Grammar} (hg : g.WellFormed) : Region g where
  rules r := r < g.rules.size
  atoms a := a < g.atoms.size
  body _ hrule := hg.body_lt hrule
  child ha hatom c hc := Nat.lt_trans (hg.child_lt hatom c hc) ha
  call _ hatom := hg.rule_lt hatom

/-- A rule of the region that matches without consuming has a nullable body. -/
def Answers.Nullable {g : Grammar} (A : Answers) (R : Region g) (length : Nat) : Prop :=
  ∀ r q f, R.rules r → q ≤ length → A r q (some f) → f.stop = q →
    ∃ rule, g.rules[r]? = some rule ∧ Grammar.isNullableIn g.nullable rule.body = true

namespace Form

variable (g : Grammar)

/-- There is a reason for the expression to match without consuming. -/
def Nullable : Form → Prop
  | .atom id => Grammar.isNullableIn g.nullable id = true
  | .operator id _ => g.nullableStep g.nullable id = true
  | .items atoms => ∀ a ∈ atoms, Grammar.isNullableIn g.nullable a = true
  | .alternatives atoms => ∃ a ∈ atoms, Grammar.isNullableIn g.nullable a = true
  | .run a min max count =>
      isFull max count = true ∨ min ≤ count ∨ Grammar.isNullableIn g.nullable a = true

/-- The expression can ask for the rule before it has consumed anything. -/
def Calls (r : RuleId) : Form → Prop
  | .atom id => r ∈ g.callsOf id
  | .operator _ op => r ∈ Grammar.operatorCalls g.nullable g.callsOf op
  | .items atoms => r ∈ Grammar.sequenceCalls g.nullable g.callsOf atoms
  | .alternatives atoms => ∃ a ∈ atoms, r ∈ g.callsOf a
  | .run a _ _ _ => r ∈ g.callsOf a

end Form

section Region

variable {g : Grammar} {R : Region g}

theorem Visits.region {subject : Subject} {A : Answers} {form : Form} {p : Nat} {r : RuleId}
    {q : Nat} (h : Visits g subject A form p r q) (hform : R.Has form) : R.rules r := by
  induction h with
  | atom hatom _ ih => exact ih ⟨hform, hatom⟩
  | rule => exact R.call hform.1 hform.2
  | sequence _ ih => exact ih fun a ha => R.child hform.1 hform.2 a ha
  | choice _ ih => exact ih fun a ha => R.child hform.1 hform.2 a ha
  | repetition _ ih | lookahead _ ih | discard _ ih | splice _ ih =>
      exact ih (R.child hform.1 hform.2 _ List.mem_cons_self)
  | item _ ih | alternative _ ih => exact ih (hform _ List.mem_cons_self)
  | items _ _ ih | alternatives _ _ ih => exact ih fun a ha => hform a (List.mem_cons_of_mem _ ha)
  | next _ _ ih => exact ih hform
  | more _ _ _ _ ih => exact ih hform

variable {input : Input} {A : Answers} {form : Form} {p : Nat}

theorem BodyVisits.inRange (hg : g.WellFormed) (hA : A.Bounded input.length) {r r' : RuleId}
    {q : Nat} (h : BodyVisits g (.ofInput input) A r p r' q) (hr : r < g.rules.size)
    (hp : p ≤ input.length) : r' < g.rules.size ∧ q ≤ input.length := by
  obtain ⟨rule, hrule, hv⟩ := h
  exact ⟨hv.region (hg.region.body hr hrule), (hv.bounds hg hA hp).2⟩

/-- What matches without consuming is nullable. -/
theorem Meaning.nullable (hg : g.WellFormed) (hR : R.Satisfiable) (hA : A.Bounded input.length)
    (hnull : A.Nullable R input.length) {o : Option Piece}
    (h : Meaning g (.ofInput input) A form p o) :
    ∀ x, o = some x → x.stop = p → p ≤ input.length → R.Has form → form.Nullable g := by
  have hterminal : ∀ {id p} x, ((Subject.ofInput input).matchTerminal g id p).map
      (fun m => Piece.single m.1 m.2) = some x → x.stop = p → p ≤ input.length →
      g.nullableStep g.nullable id = true := by
    intro id p x hx hstop hp
    obtain ⟨⟨stop, leaf⟩, hm, rfl⟩ := Option.map_eq_some_iff.1 hx
    exact (hg.matchTerminal_stop hp hm g.nullable).2.2 hstop
  induction h with
  | atom hatom _ ih =>
      intro x hx hstop hp hform
      exact Grammar.nullable_closed (ih x hx hstop hp ⟨hform, hatom⟩)
  | rule ha =>
      intro x hx hstop hp hform
      obtain ⟨f, rfl, rfl⟩ := Option.map_eq_some_iff.1 hx
      obtain ⟨rule, hrule, hbody⟩ := hnull _ _ _ (R.call hform.1 hform.2) hp ha hstop
      simpa [Form.Nullable, Grammar.nullableStep, hform.2, hrule] using hbody
  | literal | pattern | token => exact fun x hx hstop hp _ => hterminal x hx hstop hp
  | sequence _ ih =>
      intro x hx hstop hp hform
      have hall := ih x hx hstop hp (R.child hform.1 hform.2)
      simpa [Form.Nullable, Grammar.nullableStep, hform.2] using hall
  | choice _ ih =>
      intro x hx hstop hp hform
      have hany := ih x hx hstop hp (R.child hform.1 hform.2)
      simpa [Form.Nullable, Grammar.nullableStep, hform.2] using hany
  | @repetition id a min max _ _ _ ih =>
      intro x hx hstop hp hform
      have hrun := ih x hx hstop hp (R.child hform.1 hform.2 a List.mem_cons_self)
      simp only [Form.Nullable, Grammar.nullableStep, hform.2]
      rcases hrun with hfull | hmin | hnullable
      · -- A repetition that is full at once has zero for its maximum, so for its minimum too.
        obtain ⟨n, rfl⟩ : ∃ n, max = some n := by
          cases max with
          | none => contradiction
          | some n => exact ⟨n, rfl⟩
        obtain rfl : n = 0 := by simpa [isFull] using hfull
        simp [hR hform.1 hform.2]
      · simp [Nat.le_zero.1 hmin]
      · simp [hnullable]
  | lookahead =>
      intro x _ _ _ hform
      simp [Form.Nullable, Grammar.nullableStep, hform.2]
  | discard _ ih =>
      intro x hx hstop hp hform
      obtain ⟨y, rfl, rfl⟩ := Option.map_eq_some_iff.1 hx
      have hy := ih y rfl hstop hp (R.child hform.1 hform.2 _ List.mem_cons_self)
      simpa [Form.Nullable, Grammar.nullableStep, hform.2] using hy
  | splice _ ih =>
      intro x hx hstop hp hform
      obtain ⟨y, rfl, rfl⟩ := Option.map_eq_some_iff.1 hx
      have hy := ih y rfl hstop hp (R.child hform.1 hform.2 _ List.mem_cons_self)
      simpa [Form.Nullable, Grammar.nullableStep, hform.2] using hy
  | done => exact fun _ _ _ _ _ => List.forall_mem_nil _
  | item hx h ihx ih =>
      intro z hz hstop hp hform
      obtain ⟨y, rfl, rfl⟩ := Option.map_eq_some_iff.1 hz
      obtain ⟨hle, hlen⟩ := hx.bounds hg hA _ rfl hp
      obtain ⟨hle', -⟩ := h.bounds hg hA y rfl hlen
      have hy : y.stop = _ := hstop
      intro a ha
      rcases List.mem_cons.1 ha with rfl | ha
      · exact ihx _ rfl (by omega) hp (hform a List.mem_cons_self)
      · exact ih y rfl (by omega) hlen (fun b hb => hform b (List.mem_cons_of_mem _ hb)) a ha
  | broken | exhausted | tooFew => simp
  | taken _ ih =>
      intro x hx hstop hp hform
      exact ⟨_, List.mem_cons_self, ih x hx hstop hp (hform _ List.mem_cons_self)⟩
  | passed _ _ _ ih =>
      intro x hx hstop hp hform
      obtain ⟨a, ha, hnullable⟩ :=
        ih x hx hstop hp fun b hb => hform b (List.mem_cons_of_mem _ hb)
      exact ⟨a, List.mem_cons_of_mem _ ha, hnullable⟩
  | full hfull => exact fun _ _ _ _ _ => .inl hfull
  | more _ hx hlt h ihx ih =>
      -- Something was consumed, so the whole does not stop where it started.
      intro z hz hstop hp hform
      obtain ⟨y, rfl, rfl⟩ := Option.map_eq_some_iff.1 hz
      obtain ⟨-, hlen⟩ := hx.bounds hg hA _ rfl hp
      obtain ⟨hle', -⟩ := h.bounds hg hA y rfl hlen
      have hy : y.stop = _ := hstop
      omega
  | empty _ _ _ ih => exact fun x hx hstop hp hform => .inr (.inr (ih x hx hstop hp hform))
  | enough _ _ hcount => exact fun _ _ _ _ _ => .inr (.inl (Nat.le_of_not_lt hcount))

/-- What is asked for before anything was consumed is a left call. -/
theorem Visits.calls (hg : g.WellFormed) (hR : R.Satisfiable) (hA : A.Bounded input.length)
    (hnull : A.Nullable R input.length) {r : RuleId} {q : Nat}
    (h : Visits g (.ofInput input) A form p r q) (hp : p ≤ input.length) (hform : R.Has form)
    (hq : q = p) : form.Calls g r := by
  induction h with
  | atom hatom _ ih =>
      rw [Form.Calls, hg.callsOf_eq hatom]
      exact ih hp ⟨hform, hatom⟩ hq
  | rule => exact SortedSet.mem_singleton.2 rfl
  | sequence _ ih => exact ih hp (R.child hform.1 hform.2) hq
  | choice _ ih =>
      exact Grammar.mem_foldl_union.2 (.inr (ih hp (R.child hform.1 hform.2) hq))
  | repetition _ ih | lookahead _ ih | discard _ ih | splice _ ih =>
      exact ih hp (R.child hform.1 hform.2 _ List.mem_cons_self) hq
  | item _ ih => exact Grammar.mem_sequenceCalls_head (ih hp (hform _ List.mem_cons_self) hq)
  | items hx h ih =>
      obtain ⟨hle, hlen⟩ := hx.bounds hg hA _ rfl hp
      obtain ⟨hle', -⟩ := h.bounds hg hA hlen
      -- The first item stops where it starts, for else the rest would look further on.
      have hstop : _ = _ := Nat.le_antisymm (hq ▸ hle') hle
      refine Grammar.mem_sequenceCalls_tail ?_
        (ih hlen (fun a ha => hform a (List.mem_cons_of_mem _ ha)) (hq.trans hstop.symm))
      exact hx.nullable hg hR hA hnull _ rfl hstop hp (hform _ List.mem_cons_self)
  | alternative _ ih => exact ⟨_, List.mem_cons_self, ih hp (hform _ List.mem_cons_self) hq⟩
  | alternatives _ _ ih =>
      obtain ⟨a, ha, hcall⟩ := ih hp (fun a ha => hform a (List.mem_cons_of_mem _ ha)) hq
      exact ⟨a, List.mem_cons_of_mem _ ha, hcall⟩
  | next _ _ ih => exact ih hp hform hq
  | more _ hx hlt h =>
      obtain ⟨-, hlen⟩ := hx.bounds hg hA _ rfl hp
      obtain ⟨hle', -⟩ := h.bounds hg hA hlen
      omega

end Region

end Seedling
