import Seedling.Proofs.Grammar.WellFormed
import Seedling.Proofs.Reachability

/-!
The left edge, closed. The nullable atoms are closed under every reason for being nullable, the left
calls of an atom contain those of the operands that it can begin with, and what a rule reaches
contains its left calls and is closed under them.
-/

namespace Seedling.Grammar

/-! ### Nullable atoms -/

section Nullable

variable {g : Grammar} {known : Array Bool}

theorem isNullableIn_set {id i : AtomId} :
    isNullableIn (known.setIfInBounds id true) i = true ↔
      (id = i ∧ id < known.size) ∨ isNullableIn known i = true := by
  rw [isNullableIn, isNullableIn, Array.getElem?_setIfInBounds]
  by_cases hid : id = i
  · subst hid
    by_cases hlt : id < known.size
    · simp [hlt]
    · simp [hlt]
  · simp [hid]

def knownNullable (known : Array Bool) : Finset AtomId :=
  (Finset.range known.size).filter fun id => isNullableIn known id = true

theorem card_knownNullable_le : (knownNullable known).card ≤ known.size := by
  have h := Finset.card_filter_le (Finset.range known.size) fun id => isNullableIn known id = true
  rwa [Finset.card_range] at h

theorem card_knownNullable_set {id : AtomId} (hlt : id < known.size)
    (hnew : isNullableIn known id ≠ true) :
    (knownNullable known).card < (knownNullable (known.setIfInBounds id true)).card := by
  apply Finset.card_lt_card
  rw [Finset.ssubset_iff_of_subset]
  · refine ⟨id, ?_, ?_⟩
    · simp [knownNullable, isNullableIn_set, hlt]
    · simp [knownNullable, hnew]
  · intro i hi
    simp only [knownNullable, Finset.mem_filter, Finset.mem_range, Array.size_setIfInBounds,
      isNullableIn_set] at hi ⊢
    exact ⟨hi.1, .inr hi.2⟩

/-- What a pass over some atoms does: it finds more, or it finds nothing because there is
nothing. -/
theorem nullablePass_spec (ids : List AtomId) (known : Array Bool)
    (hids : ∀ id ∈ ids, id < known.size) :
    let next := ids.foldl
      (fun known id =>
        if !isNullableIn known id && g.nullableStep known id then known.setIfInBounds id true
        else known) known
    next.size = known.size ∧
      ((knownNullable known).card < (knownNullable next).card ∨
        next = known ∧ ∀ id ∈ ids, g.nullableStep known id = true →
            isNullableIn known id = true) := by
  induction ids generalizing known with
  | nil => exact ⟨rfl, .inr ⟨rfl, by simp⟩⟩
  | cons id ids ih =>
      dsimp only
      rw [List.foldl_cons]
      by_cases hfire : (!isNullableIn known id && g.nullableStep known id) = true
      · rw [if_pos hfire]
        have hlt : id < known.size := hids id List.mem_cons_self
        have hnew : isNullableIn known id ≠ true := by
          intro h
          simp [h] at hfire
        obtain ⟨hsize, hcard⟩ := ih (known.setIfInBounds id true) fun i hi => by
          rw [Array.size_setIfInBounds]
          exact hids i (List.mem_cons_of_mem id hi)
        have hone := card_knownNullable_set hlt hnew
        refine ⟨hsize.trans Array.size_setIfInBounds, .inl ?_⟩
        rcases hcard with hcard | ⟨heq, -⟩
        · exact Nat.lt_trans hone hcard
        · rwa [heq]
      · rw [if_neg hfire]
        obtain ⟨hsize, hcard⟩ := ih known fun i hi => hids i (List.mem_cons_of_mem id hi)
        refine ⟨hsize, hcard.imp_right fun ⟨heq, hnone⟩ => ⟨heq, fun i hi hstep => ?_⟩⟩
        rcases List.mem_cons.1 hi with rfl | hi
        · simpa [hstep] using hfire
        · exact hnone i hi hstep

/-- There are passes enough: each but the last finds an atom. -/
theorem stabilize_closed (rounds : Nat) (known : Array Bool) (hsize : known.size = g.atoms.size)
    (hrounds : g.atoms.size < rounds + (knownNullable known).card) {id : AtomId}
    (hid : id < g.atoms.size)
    (hstep : g.nullableStep (g.stabilize rounds known) id = true) :
    isNullableIn (g.stabilize rounds known) id = true := by
  induction rounds generalizing known with
  | zero =>
      have hle := @card_knownNullable_le known
      omega
  | succ rounds ih =>
      obtain ⟨hsize', hcard⟩ := nullablePass_spec (g := g) (List.range g.atoms.size) known
        fun i hi => by rw [hsize]; exact List.mem_range.1 hi
      change (g.nullablePass known).size = _ at hsize'
      change _ < (knownNullable (g.nullablePass known)).card ∨ g.nullablePass known = _ ∧ _ at hcard
      rw [stabilize] at hstep ⊢
      split at hstep
      · rename_i heq
        rw [if_pos heq]
        rcases hcard with hcard | ⟨-, hnone⟩
        · rw [heq] at hcard
          exact absurd hcard (Nat.lt_irrefl _)
        · exact hnone id (List.mem_range.2 hid) hstep
      · rename_i hne
        rw [if_neg hne]
        rcases hcard with hcard | ⟨heq, -⟩
        · exact ih _ (hsize'.trans hsize) (by omega) hstep
        · exact absurd heq hne

theorem nullable_closed {id : AtomId} (hstep : g.nullableStep g.nullable id = true) :
    isNullableIn g.nullable id = true := by
  have hid : id < g.atoms.size := by
    by_contra hge
    rw [nullableStep, Array.getElem?_eq_none (Nat.le_of_not_lt hge)] at hstep
    contradiction
  exact stabilize_closed (g.atoms.size + 1) _ Array.size_replicate (by omega) hid hstep

end Nullable

/-! ### Left calls -/

/-- The left calls of an atom, given those of its operands. -/
def operatorCalls (known : Array Bool) (calls : AtomId → SortedSet RuleId) :
    Atom → SortedSet RuleId
  | .rule rule => .singleton rule
  | .sequence atoms => sequenceCalls known calls atoms
  | .choice atoms => atoms.foldl (fun all a => all.union (calls a)) .empty
  | .repetition atom _ _ => calls atom
  | .lookahead atom _ => calls atom
  | .discard atom => calls atom
  | .splice atom => calls atom
  | _ => .empty

theorem leftCalls_succ (g : Grammar) (known : Array Bool) (bound id : Nat) :
    g.leftCalls known (bound + 1) id =
      (g.atoms[id]?.map (operatorCalls known (g.leftCalls known bound))).getD .empty := by
  rw [leftCalls]
  cases g.atoms[id]? with
  | none => rfl
  | some atom => cases atom <;> rfl

theorem sequenceCalls_congr {known : Array Bool} {calls calls' : AtomId → SortedSet RuleId}
    {atoms : List AtomId} (h : ∀ a ∈ atoms, calls a = calls' a) :
    sequenceCalls known calls atoms = sequenceCalls known calls' atoms := by
  induction atoms with
  | nil => rfl
  | cons a rest ih =>
      rw [sequenceCalls, sequenceCalls, h a List.mem_cons_self,
        ih fun b hb => h b (List.mem_cons_of_mem a hb)]

theorem operatorCalls_congr {known : Array Bool} {calls calls' : AtomId → SortedSet RuleId}
    {atom : Atom} (h : ∀ c ∈ atom.children, calls c = calls' c) :
    operatorCalls known calls atom = operatorCalls known calls' atom := by
  cases atom with
  | rule | literal | pattern | token => rfl
  | sequence atoms => exact sequenceCalls_congr h
  | choice atoms => exact List.foldl_ext _ _ _ fun all a ha => by rw [h a ha]
  | repetition a | lookahead a | discard a | splice a => exact h a List.mem_cons_self

section Calls

variable {g : Grammar}

/-- The bound does not matter, as operands have smaller numbers. -/
theorem WellFormed.leftCalls_eq (hg : g.WellFormed) (known : Array Bool) (id : Nat) :
    ∀ bound bound', id < bound → id < bound' →
      g.leftCalls known bound id = g.leftCalls known bound' id := by
  induction id using Nat.strong_induction_on with
  | _ id ih =>
      intro bound bound' hlt hlt'
      obtain ⟨bound, rfl⟩ : ∃ n, bound = n + 1 := ⟨bound - 1, by omega⟩
      obtain ⟨bound', rfl⟩ : ∃ n, bound' = n + 1 := ⟨bound' - 1, by omega⟩
      rw [leftCalls_succ, leftCalls_succ]
      cases hatom : g.atoms[id]? with
      | none => rfl
      | some atom =>
          rw [Option.map_some, Option.map_some]
          refine congrArg (fun calls => (some calls).getD .empty)
            (operatorCalls_congr fun c hc => ?_)
          have hc' : c < id := hg.child_lt hatom c hc
          exact ih c hc' bound bound' (Nat.lt_of_lt_of_le hc' (Nat.le_of_lt_succ hlt))
            (Nat.lt_of_lt_of_le hc' (Nat.le_of_lt_succ hlt'))

def callsOf (g : Grammar) (id : AtomId) : SortedSet RuleId :=
  g.leftCalls g.nullable g.atoms.size id

theorem WellFormed.callsOf_eq (hg : g.WellFormed) {id : AtomId} {atom : Atom}
    (hatom : g.atoms[id]? = some atom) :
    g.callsOf id = operatorCalls g.nullable g.callsOf atom := by
  have hid : id < g.atoms.size := (Array.getElem?_eq_some_iff.1 hatom).1
  rw [callsOf, hg.leftCalls_eq g.nullable id _ (g.atoms.size + 1) hid (Nat.lt_succ_of_lt hid),
    leftCalls_succ, hatom]
  rfl

theorem mem_sequenceCalls_head {known : Array Bool} {calls : AtomId → SortedSet RuleId}
    {a : AtomId} {rest : List AtomId} {r : RuleId} (h : r ∈ calls a) :
    r ∈ sequenceCalls known calls (a :: rest) := by
  rw [sequenceCalls]
  split
  · exact SortedSet.mem_union.2 (.inl h)
  · exact h

theorem mem_sequenceCalls_tail {known : Array Bool} {calls : AtomId → SortedSet RuleId}
    {a : AtomId} {rest : List AtomId} {r : RuleId} (ha : isNullableIn known a = true)
    (h : r ∈ sequenceCalls known calls rest) : r ∈ sequenceCalls known calls (a :: rest) := by
  rw [sequenceCalls, if_pos ha]
  exact SortedSet.mem_union.2 (.inr h)

theorem mem_foldl_union {calls : AtomId → SortedSet RuleId} {atoms : List AtomId}
    {all : SortedSet RuleId} {r : RuleId} :
    r ∈ atoms.foldl (fun all a => all.union (calls a)) all ↔
      r ∈ all ∨ ∃ a ∈ atoms, r ∈ calls a := by
  induction atoms generalizing all with
  | nil => simp
  | cons a rest ih =>
      rw [List.foldl_cons, ih, SortedSet.mem_union]
      simp [or_assoc]

theorem sequenceCalls_subset {known : Array Bool} {calls : AtomId → SortedSet RuleId}
    {atoms : List AtomId} {r : RuleId} (h : r ∈ sequenceCalls known calls atoms) :
    ∃ a ∈ atoms, r ∈ calls a := by
  induction atoms with
  | nil => exact absurd h (SortedSet.not_mem_empty r)
  | cons a rest ih =>
      rw [sequenceCalls] at h
      split at h
      · rcases SortedSet.mem_union.1 h with h | h
        · exact ⟨a, List.mem_cons_self, h⟩
        · obtain ⟨b, hb, hr⟩ := ih h
          exact ⟨b, List.mem_cons_of_mem a hb, hr⟩
      · exact ⟨a, List.mem_cons_self, h⟩

theorem mem_operatorCalls {known : Array Bool} {calls : AtomId → SortedSet RuleId} {atom : Atom}
    {r : RuleId} (h : r ∈ operatorCalls known calls atom) :
    atom = .rule r ∨ ∃ c ∈ atom.children, r ∈ calls c := by
  cases atom with
  | rule rule =>
      rw [SortedSet.mem_singleton.1 h]
      exact .inl rfl
  | literal | pattern | token => exact absurd h (SortedSet.not_mem_empty r)
  | sequence atoms => exact .inr (sequenceCalls_subset h)
  | choice atoms =>
      rcases mem_foldl_union.1 h with h | h
      · exact absurd h (SortedSet.not_mem_empty r)
      · exact .inr h
  | repetition a | lookahead a | discard a | splice a => exact .inr ⟨a, List.mem_cons_self, h⟩

theorem WellFormed.lt_of_mem_callsOf (hg : g.WellFormed) {id : Nat} {r : RuleId}
    (h : r ∈ g.callsOf id) : r < g.rules.size := by
  induction id using Nat.strong_induction_on with
  | _ id ih =>
      cases hatom : g.atoms[id]? with
      | none =>
          rw [callsOf] at h
          cases hsize : g.atoms.size with
          | zero =>
              rw [hsize] at h
              exact absurd h (SortedSet.not_mem_empty r)
          | succ n =>
              rw [hsize, leftCalls_succ, hatom] at h
              exact absurd h (SortedSet.not_mem_empty r)
      | some atom =>
          rw [hg.callsOf_eq hatom] at h
          rcases mem_operatorCalls h with rfl | ⟨c, hc, hr⟩
          · exact hg.rule_lt hatom
          · exact ih c (hg.child_lt hatom c hc) hr

end Calls

/-! ### Reach -/

section Reach

variable {g : Grammar}

def ruleCalls (g : Grammar) (r : RuleId) : SortedSet RuleId :=
  (g.rules[r]?.map fun rule => g.callsOf rule.body).getD .empty

/-- The rules that a rule can call before it has consumed anything, directly or through others. -/
def reachOf (g : Grammar) (r : RuleId) : SortedSet RuleId := g.leftEdge.reachOf r

theorem WellFormed.lt_of_mem_ruleCalls (hg : g.WellFormed) {r r' : RuleId}
    (h : r' ∈ g.ruleCalls r) : r' < g.rules.size := by
  rw [ruleCalls] at h
  cases hrule : g.rules[r]? with
  | none =>
      rw [hrule] at h
      exact absurd h (SortedSet.not_mem_empty r')
  | some rule =>
      rw [hrule] at h
      exact hg.lt_of_mem_callsOf h

theorem WellFormed.mem_reachOf (hg : g.WellFormed) {r r' : RuleId} :
    r' ∈ g.reachOf r ↔ ∃ c ∈ g.ruleCalls r, Reachability.Reaches g.ruleCalls c r' := by
  have hdirect : ∀ i : Nat, ((g.directCalls g.nullable)[i]?).getD .empty = g.ruleCalls i := by
    intro i
    rw [directCalls, Array.getElem?_map, ruleCalls]
    rfl
  have hnext : (fun i : Nat => ((g.directCalls g.nullable)[i]?).getD .empty) = g.ruleCalls :=
    funext hdirect
  rw [reachOf, leftEdge, LeftEdge.reachOf, leftReach, hnext, Array.getElem?_map]
  cases hcalls : (g.directCalls g.nullable)[r]? with
  | none =>
      have hempty := hdirect r
      rw [hcalls] at hempty
      rw [← hempty]
      simp [SortedSet.not_mem_empty]
  | some calls =>
      have heq := hdirect r
      rw [hcalls] at heq
      rw [Option.map_some, Option.getD_some,
        Reachability.mem_closure_iff fun n m hm => hg.lt_of_mem_ruleCalls hm, ← heq]
      rfl

theorem lt_of_mem_reachOf {r r' : RuleId} (h : r' ∈ g.reachOf r) : r < g.rules.size := by
  apply Nat.lt_of_not_le
  intro hle
  have hnone : (g.leftReach g.nullable)[r]? = none := by
    rw [Array.getElem?_eq_none_iff, leftReach, Array.size_map, directCalls, Array.size_map]
    exact hle
  rw [reachOf, leftEdge, LeftEdge.reachOf, hnone] at h
  exact SortedSet.not_mem_empty r' h

theorem WellFormed.mem_reachOf_of_call (hg : g.WellFormed) {r r' : RuleId}
    (h : r' ∈ g.ruleCalls r) : r' ∈ g.reachOf r :=
  hg.mem_reachOf.2 ⟨r', h, .refl⟩

theorem WellFormed.reachOf_trans (hg : g.WellFormed) {a b c : RuleId} (hab : b ∈ g.reachOf a)
    (hbc : c ∈ g.reachOf b) : c ∈ g.reachOf a := by
  obtain ⟨x, hx, hxb⟩ := hg.mem_reachOf.1 hab
  obtain ⟨y, hy, hyc⟩ := hg.mem_reachOf.1 hbc
  exact hg.mem_reachOf.2 ⟨x, hx, (hxb.tail hy).trans hyc⟩

end Reach

end Seedling.Grammar
