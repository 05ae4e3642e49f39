import Seedling.Proofs.Grammar.Algebra
import Seedling.Proofs.Grammar.LeftEdge

/-!
Grammars that differ only in how series are nested have the same left edge. The same atoms are
nullable, the same rules are called before anything is consumed, and a cycle of left recursion
is hopeless in one of them if it is in the other. Each of these is computed by an algebra that
does not see the nesting.
-/

namespace Seedling

def patternMatcher (pattern : String) : Option Automaton.Recognizer :=
  match Regex.parse pattern with
  | .ok r => some r.recognizer
  | .error _ => none

namespace Grammar

/-- The grammar is in order, and its patterns are compiled. -/
structure Compiled (g : Grammar) : Prop extends g.WellFormed where
  compiled : ∀ {id : AtomId} {pattern : String}, g.atoms[id]? = some (.pattern pattern) →
    g.matcher? id = patternMatcher pattern

/-- Grammars with the same rules, up to how series are nested. -/
structure Alike (g g' : Grammar) : Prop extends
    SameRules (g.atoms[·]?) (g'.atoms[·]?) g.rules g'.rules where
  left : g.Compiled
  right : g'.Compiled
  root : g.root = g'.root
  mode : g.mode? = g'.mode?

end Grammar

namespace Algebra

variable {α : Type} (A : Algebra α)

/-- What the atoms of a grammar with a number below the bound come to. -/
def fold (g : Grammar) (default : α) : Nat → AtomId → α
  | 0, _ => default
  | bound + 1, id => (g.atoms[id]?.map (A.value (fold g default bound))).getD default

theorem computes_fold {g : Grammar} (hg : g.WellFormed) (default : α) :
    A.Computes (g.atoms[·]?) (A.fold g default g.atoms.size) := by
  refine computes_of_bounded hg fun bound id atom hatom => ?_
  rw [fold, hatom]
  rfl

end Algebra

namespace Grammar

variable {g g' : Grammar}

/-! ### Nullable atoms -/

/-- Which atoms are nullable, given which rules are. -/
def nullability (rules : RuleId → Bool) : Algebra Bool where
  leaf
    | .rule r => rules r
    | .literal text => text.isEmpty
    | .pattern pattern => ((patternMatcher pattern).map fun m => m.dfa.isFinal 0).getD false
    | _ => false
  series
    | .sequence, items => items.all id
    | .choice, items => items.any id
  wrap
    | .repetition min _, item => min = 0 || item
    | .lookahead _, _ => true
    | .discard, item => item
    | .splice, item => item

theorem nullability_flat (rules : RuleId → Bool) : (nullability rules).Flat := by
  intro k pre inner post
  cases k with
  | sequence => simp [nullability]
  | choice => simp [nullability]

theorem nullability_mono {rules rules' : RuleId → Bool} {v v' : AtomId → Bool} {atom : Atom}
    (hrules : ∀ r, rules r = true → rules' r = true)
    (hv : ∀ c ∈ atom.children, v c = true → v' c = true)
    (h : (nullability rules).value v atom = true) : (nullability rules').value v' atom = true := by
  cases atom with
  | rule r => exact hrules r h
  | literal | pattern | token | lookahead => exact h
  | sequence atoms =>
      simp only [nullability, Algebra.value, List.all_map, List.all_eq_true] at h ⊢
      exact fun c hc => hv c hc (h c hc)
  | choice atoms =>
      simp only [nullability, Algebra.value, List.any_map, List.any_eq_true] at h ⊢
      obtain ⟨c, hc, hnullable⟩ := h
      exact ⟨c, hc, hv c hc hnullable⟩
  | repetition a min =>
      simp only [nullability, Algebra.value, Bool.or_eq_true] at h ⊢
      exact h.imp_right (hv a List.mem_cons_self)
  | discard a | splice a => exact hv a List.mem_cons_self h

/-- Which rules are nullable, by what is known of their bodies. -/
def ruleNullable (g : Grammar) (known : Array Bool) (r : RuleId) : Bool :=
  (g.rules[r]?.map fun rule => isNullableIn known rule.body).getD false

theorem Compiled.nullableStep_eq (hg : g.Compiled) (known : Array Bool) {id : AtomId} {atom : Atom}
    (hatom : g.atoms[id]? = some atom) : g.nullableStep known id =
      (nullability (g.ruleNullable known)).value (isNullableIn known) atom := by
  rw [nullableStep, hatom]
  cases atom with
  | rule | literal | token | repetition | lookahead | discard | splice => rfl
  | pattern pattern =>
      dsimp only
      rw [hg.compiled hatom]
      rfl
  | sequence atoms | choice atoms => simp [nullability, Algebra.value]

/-- The nullable atoms, given which rules are nullable. -/
def nullableGiven (g : Grammar) (rules : RuleId → Bool) : AtomId → Bool :=
  (nullability rules).fold g false g.atoms.size

section Least

variable {rules : RuleId → Bool}
  (hrules : ∀ {r rule}, g.rules[r]? = some rule → g.nullableGiven rules rule.body = true →
    rules r = true)

/-- What is known is right, if rules are nullable whenever their bodies are. -/
def Justified (g : Grammar) (rules : RuleId → Bool) (known : Array Bool) : Prop :=
  ∀ id, isNullableIn known id = true → g.nullableGiven rules id = true

include hrules in
theorem Compiled.justified_pass (hg : g.Compiled) (ids : List AtomId) {known : Array Bool}
    (h : Justified g rules known) :
    Justified g rules (ids.foldl (fun known id =>
      if !isNullableIn known id && g.nullableStep known id then known.setIfInBounds id true
      else known) known) := by
  induction ids generalizing known with
  | nil => exact h
  | cons id ids ih =>
      rw [List.foldl_cons]
      split
      · rename_i hfire
        have hstep : g.nullableStep known id = true := (Bool.and_eq_true_iff.1 hfire).2
        refine ih fun i hi => ?_
        rcases isNullableIn_set.1 hi with ⟨rfl, -⟩ | hi
        · cases hatom : g.atoms[id]? with
          | none =>
              rw [nullableStep, hatom] at hstep
              contradiction
          | some atom =>
              rw [hg.nullableStep_eq known hatom] at hstep
              rw [nullableGiven,
                (nullability rules).computes_fold hg.toWellFormed false id atom hatom]
              refine nullability_mono (fun r hr => ?_) (fun c _ => h c) hstep
              rw [ruleNullable] at hr
              cases hrule : g.rules[r]? with
              | none =>
                  rw [hrule] at hr
                  contradiction
              | some rule =>
                  rw [hrule] at hr
                  exact hrules hrule (h rule.body hr)
        · exact h i hi
      · exact ih h

include hrules in
theorem Compiled.justified_stabilize (hg : g.Compiled) (rounds : Nat) {known : Array Bool}
    (h : Justified g rules known) : Justified g rules (g.stabilize rounds known) := by
  induction rounds generalizing known with
  | zero => exact h
  | succ rounds ih =>
      rw [stabilize]
      split
      · exact h
      · exact ih (hg.justified_pass hrules (List.range g.atoms.size) h)

include hrules in
theorem Compiled.justified_nullable (hg : g.Compiled) : Justified g rules g.nullable := by
  have hnone : Justified g rules (Array.replicate g.atoms.size false) := by
    intro id hid
    rw [isNullableIn, Array.getElem?_replicate] at hid
    split at hid <;> contradiction
  exact hg.justified_stabilize hrules (g.atoms.size + 1) hnone

end Least

theorem Compiled.isNullableIn_of_given (hg : g.Compiled) {id : Nat}
    (h : g.nullableGiven (g.ruleNullable g.nullable) id = true) :
    isNullableIn g.nullable id = true := by
  induction id using Nat.strong_induction_on with
  | _ id ih =>
      cases hatom : g.atoms[id]? with
      | none =>
          rw [nullableGiven] at h
          cases hsize : g.atoms.size with
          | zero =>
              rw [hsize] at h
              contradiction
          | succ n =>
              rw [hsize, Algebra.fold, hatom] at h
              contradiction
      | some atom =>
          rw [nullableGiven, (nullability _).computes_fold hg.toWellFormed false id atom hatom] at h
          refine nullable_closed ?_
          rw [hg.nullableStep_eq g.nullable hatom]
          exact nullability_mono (fun r hr => hr) (fun c hc => ih c (hg.child_lt hatom c hc)) h

theorem Compiled.isNullableIn_eq (hg : g.Compiled) (id : AtomId) :
    isNullableIn g.nullable id = g.nullableGiven (g.ruleNullable g.nullable) id := by
  rw [Bool.eq_iff_iff]
  refine ⟨fun h => ?_, hg.isNullableIn_of_given⟩
  refine hg.justified_nullable (fun {r rule} hrule hbody => ?_) id h
  rw [ruleNullable, hrule]
  exact hg.isNullableIn_of_given hbody

theorem Compiled.computes_nullable (hg : g.Compiled) :
    (nullability (g.ruleNullable g.nullable)).Computes (g.atoms[·]?) (isNullableIn g.nullable) := by
  rw [funext hg.isNullableIn_eq]
  exact (nullability _).computes_fold hg.toWellFormed false

namespace Alike

theorem nullableGiven_eq (h : Alike g g') (rules : RuleId → Bool) {id id' : AtomId}
    (hid : Flattens (g.atoms[·]?) (g'.atoms[·]?) none [id] id') :
    g.nullableGiven rules id = g'.nullableGiven rules id' :=
  hid.value_eq (nullability_flat rules)
    ((nullability rules).computes_fold h.left.toWellFormed false)
    ((nullability rules).computes_fold h.right.toWellFormed false)

/-- The nullable rules of one grammar would do for the other, as its bodies are alike. -/
theorem given_ruleNullable (h : Alike g g') {r : Nat} :
    (∀ {rule}, g.rules[r]? = some rule →
      g.nullableGiven (g'.ruleNullable g'.nullable) rule.body = g'.ruleNullable g'.nullable r) ∧
    ∀ {rule'}, g'.rules[r]? = some rule' →
      g'.nullableGiven (g.ruleNullable g.nullable) rule'.body = g.ruleNullable g.nullable r := by
  rcases h.rule_cases r with ⟨hrule, hrule'⟩ | ⟨rule, rule', hrule, hrule', -, hbody⟩
  · simp [hrule, hrule']
  · constructor
    · intro _ heq
      cases hrule.symm.trans heq
      rw [h.nullableGiven_eq _ hbody, ← h.right.isNullableIn_eq, ruleNullable, hrule']
      rfl
    · intro _ heq
      cases hrule'.symm.trans heq
      rw [← h.nullableGiven_eq _ hbody, ← h.left.isNullableIn_eq, ruleNullable, hrule]
      rfl

/-- The same rules are nullable, for neither grammar has any that it need not have. -/
theorem ruleNullable_eq (h : Alike g g') :
    g.ruleNullable g.nullable = g'.ruleNullable g'.nullable := by
  have hleft : Justified g (g'.ruleNullable g'.nullable) g.nullable :=
    h.left.justified_nullable fun hrule hbody => h.given_ruleNullable.1 hrule ▸ hbody
  have hright : Justified g' (g.ruleNullable g.nullable) g'.nullable :=
    h.right.justified_nullable fun hrule hbody => h.given_ruleNullable.2 hrule ▸ hbody
  funext r
  rw [Bool.eq_iff_iff]
  rcases h.rule_cases r with ⟨hrule, hrule'⟩ | ⟨rule, rule', hrule, hrule', -⟩
  · rw [ruleNullable, ruleNullable, hrule, hrule']
    rfl
  · constructor
    · intro hnullable
      rw [← h.given_ruleNullable.1 hrule]
      rw [ruleNullable, hrule] at hnullable
      exact hleft _ hnullable
    · intro hnullable
      rw [← h.given_ruleNullable.2 hrule']
      rw [ruleNullable, hrule'] at hnullable
      exact hright _ hnullable

theorem isNullableIn_eq (h : Alike g g') {id id' : AtomId}
    (hid : Flattens (g.atoms[·]?) (g'.atoms[·]?) none [id] id') :
    isNullableIn g.nullable id = isNullableIn g'.nullable id' := by
  rw [h.left.isNullableIn_eq, h.right.isNullableIn_eq, h.ruleNullable_eq]
  exact h.nullableGiven_eq _ hid

end Alike

/-! ### Calls -/

/-- An algebra that also says which atoms are nullable, and can make use of it in a series. -/
def besideNullable {β : Type} (rules : RuleId → Bool) (leaf : Atom → β)
    (series : Series → List (Bool × β) → β) (wrap : Wrapper → β → β) : Algebra (Bool × β) where
  leaf atom := ((nullability rules).leaf atom, leaf atom)
  series k items := ((nullability rules).series k (items.map Prod.fst), series k items)
  wrap w item := ((nullability rules).wrap w item.1, wrap w item.2)

section BesideNullable

variable {β : Type} {rules : RuleId → Bool} {leaf : Atom → β}
  {series : Series → List (Bool × β) → β}
  {wrap : Wrapper → β → β}

theorem besideNullable_flat
    (h : ∀ k pre inner post, series k (pre ++ ((nullability rules).series k (inner.map Prod.fst),
      series k inner) :: post) = series k (pre ++ inner ++ post)) :
    (besideNullable rules leaf series wrap).Flat := by
  intro k pre inner post
  refine Prod.ext ?_ (h k pre inner post)
  have hflat := nullability_flat rules k (pre.map Prod.fst) (inner.map Prod.fst) (post.map Prod.fst)
  simpa [besideNullable] using hflat

theorem fst_besideNullable (v : AtomId → Bool × β) (atom : Atom) :
    ((besideNullable rules leaf series wrap).value v atom).1 =
      (nullability rules).value (fun a => (v a).1) atom := by
  cases atom with
  | sequence atoms | choice atoms => simp [besideNullable, Algebra.value, Function.comp_def]
  | rule | literal | pattern | token | repetition | lookahead | discard | splice => rfl

theorem Compiled.besideNullable_computes (hg : g.Compiled) {f : AtomId → β}
    (hf : ∀ id atom, g.atoms[id]? = some atom → f id =
      ((besideNullable (g.ruleNullable g.nullable) leaf series wrap).value
        (fun a => (isNullableIn g.nullable a, f a)) atom).2) :
    (besideNullable (g.ruleNullable g.nullable) leaf series wrap).Computes (g.atoms[·]?)
      (fun a => (isNullableIn g.nullable a, f a)) := by
  intro id atom hatom
  refine Prod.ext ?_ (hf id atom hatom)
  rw [fst_besideNullable]
  exact hg.computes_nullable id atom hatom

end BesideNullable

/-- The calls of items one after the other, each with whether it is nullable. -/
def callsInOrder : List (Bool × SortedSet RuleId) → SortedSet RuleId
  | [] => .empty
  | (nullable, calls) :: rest => if nullable then calls.union (callsInOrder rest) else calls

theorem mem_callsInOrder_append {xs ys : List (Bool × SortedSet RuleId)} {r : RuleId} :
    r ∈ callsInOrder (xs ++ ys) ↔
      r ∈ callsInOrder xs ∨ xs.all Prod.fst = true ∧ r ∈ callsInOrder ys := by
  induction xs with
  | nil => simp [callsInOrder]
  | cons x xs ih =>
      obtain ⟨nullable, calls⟩ := x
      cases nullable with
      | false => simp [callsInOrder]
      | true => simp [callsInOrder, ih, or_assoc]

theorem mem_callsInOrder_cons {x : Bool × SortedSet RuleId}
    {xs : List (Bool × SortedSet RuleId)} {r : RuleId} :
    r ∈ callsInOrder (x :: xs) ↔ r ∈ x.2 ∨ x.1 = true ∧ r ∈ callsInOrder xs := by
  obtain ⟨nullable, calls⟩ := x
  cases nullable with
  | false => simp [callsInOrder]
  | true => simp [callsInOrder]

theorem sequenceCalls_eq (known : Array Bool) (calls : AtomId → SortedSet RuleId)
    (atoms : List AtomId) :
    sequenceCalls known calls atoms =
      callsInOrder (atoms.map fun a => (isNullableIn known a, calls a)) := by
  induction atoms with
  | nil => rfl
  | cons a rest ih => rw [sequenceCalls, ih, List.map_cons, callsInOrder]

def callsOfAny (items : List (Bool × SortedSet RuleId)) : SortedSet RuleId :=
  items.foldl (fun all item => all.union item.2) .empty

theorem mem_callsOfAny {items : List (Bool × SortedSet RuleId)} {r : RuleId} :
    r ∈ callsOfAny items ↔ ∃ item ∈ items, r ∈ item.2 := by
  have hfold : ∀ all : SortedSet RuleId, r ∈ items.foldl (fun all item => all.union item.2) all ↔
      r ∈ all ∨ ∃ item ∈ items, r ∈ item.2 := by
    induction items with
    | nil => simp
    | cons item items ih => simp [ih, or_assoc]
  exact (hfold .empty).trans (or_iff_right (SortedSet.not_mem_empty r))

def calling (rules : RuleId → Bool) : Algebra (Bool × SortedSet RuleId) :=
  besideNullable rules
    (fun
      | .rule r => .singleton r
      | _ => .empty)
    (fun
      | .sequence, items => callsInOrder items
      | .choice, items => callsOfAny items)
    fun _ calls => calls

theorem calling_flat (rules : RuleId → Bool) : (calling rules).Flat := by
  refine besideNullable_flat fun k pre inner post => SortedSet.ext_mem fun r => ?_
  cases k with
  | sequence =>
      simp only [List.append_assoc, mem_callsInOrder_append, mem_callsInOrder_cons]
      simp [nullability]
  | choice =>
      simp only [mem_callsOfAny, List.mem_append, List.mem_cons, or_and_right, exists_or,
        exists_eq_left, or_assoc]

theorem Compiled.computes_calls (hg : g.Compiled) : (calling (g.ruleNullable g.nullable)).Computes
    (g.atoms[·]?) (fun a => (isNullableIn g.nullable a, g.callsOf a)) := by
  refine hg.besideNullable_computes fun id atom hatom => ?_
  rw [hg.callsOf_eq hatom]
  cases atom with
  | rule | literal | pattern | token | repetition | lookahead | discard | splice => rfl
  | sequence atoms => exact sequenceCalls_eq _ _ atoms
  | choice atoms =>
      show _ = callsOfAny (atoms.map _)
      rw [callsOfAny, List.foldl_map]
      rfl

namespace Alike

theorem callsOf_eq (h : Alike g g') {id id' : AtomId}
    (hid : Flattens (g.atoms[·]?) (g'.atoms[·]?) none [id] id') :
    g.callsOf id = g'.callsOf id' := by
  have hcalls := h.left.computes_calls
  rw [h.ruleNullable_eq] at hcalls
  exact congrArg Prod.snd (hid.value_eq (calling_flat _) hcalls h.right.computes_calls)

theorem leftReach_eq (h : Alike g g') : g.leftReach g.nullable = g'.leftReach g'.nullable := by
  have hdirect : g.directCalls g.nullable = g'.directCalls g'.nullable := by
    refine Array.ext_getElem? fun r => ?_
    rw [directCalls, directCalls, Array.getElem?_map, Array.getElem?_map]
    rcases h.rule_cases r with ⟨hrule, hrule'⟩ | ⟨rule, rule', hrule, hrule', -, hbody⟩
    · rw [hrule, hrule']
      rfl
    · rw [hrule, hrule']
      exact congrArg some (h.callsOf_eq hbody)
  rw [leftReach, leftReach, hdirect, h.size]

end Alike

end Grammar

/-! ### Hopeless cycles -/

namespace LeftEdge

open Grammar

/-- Whether one of the items has to enter, before an item that has to consume. -/
def entersInOrder : List (Bool × (SortedSet RuleId → Verdict)) → SortedSet RuleId → Verdict
  | [], visited => (false, visited)
  | (nullable, must) :: rest, visited =>
      if (must visited).1 then must visited
      else if nullable then entersInOrder rest (must visited).2
      else must visited

def entersInAll : List (Bool × (SortedSet RuleId → Verdict)) → SortedSet RuleId → Verdict
  | [], visited => (true, visited)
  | (_, must) :: rest, visited =>
      if (must visited).1 then entersInAll rest (must visited).2 else must visited

theorem entersInOrder_append (xs ys : List (Bool × (SortedSet RuleId → Verdict)))
    (visited : SortedSet RuleId) : entersInOrder (xs ++ ys) visited =
      if (entersInOrder xs visited).1 then entersInOrder xs visited
      else if xs.all Prod.fst then entersInOrder ys (entersInOrder xs visited).2
      else entersInOrder xs visited := by
  induction xs generalizing visited with
  | nil => simp [entersInOrder]
  | cons x xs ih =>
      obtain ⟨nullable, must⟩ := x
      rw [List.cons_append, entersInOrder, entersInOrder, ih]
      cases hmust : (must visited).1 with
      | true => simp [hmust]
      | false =>
          cases nullable with
          | true =>
              simp only [Bool.false_eq_true, if_false, if_true, List.all_cons]
              rfl
          | false => simp [hmust]

theorem entersInAll_append (xs ys : List (Bool × (SortedSet RuleId → Verdict)))
    (visited : SortedSet RuleId) : entersInAll (xs ++ ys) visited =
      if (entersInAll xs visited).1 then entersInAll ys (entersInAll xs visited).2
      else entersInAll xs visited := by
  induction xs generalizing visited with
  | nil => simp [entersInAll]
  | cons x xs ih =>
      obtain ⟨nullable, must⟩ := x
      rw [List.cons_append, entersInAll, entersInAll, ih]
      cases hmust : (must visited).1 with
      | true => simp
      | false => simp [hmust]

theorem sequenceMustEnter_eq (isNullable : AtomId → Bool)
    (must : AtomId → SortedSet RuleId → Verdict)
    (atoms : List AtomId) (visited : SortedSet RuleId) :
    sequenceMustEnter isNullable must atoms visited =
      entersInOrder (atoms.map fun a => (isNullable a, must a)) visited := by
  induction atoms generalizing visited with
  | nil => rfl
  | cons a rest ih =>
      rw [sequenceMustEnter, List.map_cons, entersInOrder]
      rcases must a visited with ⟨_ | _, after⟩
      · simp only [ih, Bool.false_eq_true, if_false]
      · rfl

theorem allHold_eq (isNullable : AtomId → Bool) (must : AtomId → SortedSet RuleId → Verdict)
    (atoms : List AtomId) (visited : SortedSet RuleId) :
    allHold must atoms visited = entersInAll
      (atoms.map fun a => (isNullable a, must a)) visited := by
  induction atoms generalizing visited with
  | nil => rfl
  | cons a rest ih =>
      rw [allHold, List.map_cons, entersInAll]
      rcases must a visited with ⟨_ | _, after⟩
      · rfl
      · exact ih after

def entering (rules : RuleId → Bool) (cycle : SortedSet RuleId)
    (ruleMust : RuleId → SortedSet RuleId → Verdict) :
    Algebra (Bool × (SortedSet RuleId → Verdict)) :=
  besideNullable rules
    (fun
      | .rule r => fun visited => if cycle.contains r then (true, visited) else ruleMust r visited
      | _ => fun visited => (false, visited))
    (fun
      | .sequence, items => entersInOrder items
      | .choice, items => entersInAll items)
    fun
      | .repetition min _, must => fun visited => if 0 < min then must visited else (false, visited)
      | .lookahead positive, must =>
          fun visited => if positive then must visited else (false, visited)
      | .discard, must => must
      | .splice, must => must

theorem entering_flat (rules : RuleId → Bool) (cycle : SortedSet RuleId)
    (ruleMust : RuleId → SortedSet RuleId → Verdict) : (entering rules cycle ruleMust).Flat := by
  refine besideNullable_flat fun k pre inner post => funext fun visited => ?_
  cases k with
  | sequence =>
      have hall : (nullability rules).series .sequence (inner.map Prod.fst) =
          inner.all Prod.fst := by
        simp [nullability]
      dsimp only
      rw [List.append_assoc, entersInOrder_append, entersInOrder_append, entersInOrder_append,
        entersInOrder, hall]
  | choice =>
      dsimp only
      rw [List.append_assoc, entersInAll_append, entersInAll_append,
        entersInAll_append, entersInAll]

theorem computes_entering {g : Grammar} (hg : g.Compiled) (cycle : SortedSet RuleId)
    (ruleMust : RuleId → SortedSet RuleId → Verdict) :
    (entering (g.ruleNullable g.nullable) cycle ruleMust).Computes (g.atoms[·]?) (fun a =>
      (isNullableIn g.nullable a, atomMustEnter g.leftEdge cycle ruleMust g.atoms.size a)) := by
  refine Algebra.computes_of_bounded (f := fun bound a =>
    (isNullableIn g.nullable a, atomMustEnter g.leftEdge cycle ruleMust bound a)) hg.toWellFormed
    fun bound id atom hatom => ?_
  have hgrammar : g.leftEdge.grammar.atoms[id]? = some atom := hatom
  refine Prod.ext ?_ (funext fun visited => ?_)
  · rw [entering, fst_besideNullable]
    exact hg.computes_nullable id atom hatom
  · dsimp only
    rw [atomMustEnter, hgrammar]
    cases atom with
    | rule | literal | pattern | token | repetition | lookahead | discard | splice => rfl
    | sequence atoms => exact sequenceMustEnter_eq _ _ atoms visited
    | choice atoms => exact allHold_eq _ _ atoms visited

end LeftEdge

namespace Grammar.Alike

open LeftEdge

variable {g g' : Grammar}

theorem atomMustEnter_eq (h : Alike g g') (cycle : SortedSet RuleId)
    (ruleMust : RuleId → SortedSet RuleId → Verdict) {id id' : AtomId}
    (hid : Flattens (g.atoms[·]?) (g'.atoms[·]?) none [id] id') :
    atomMustEnter g.leftEdge cycle ruleMust g.atoms.size id =
      atomMustEnter g'.leftEdge cycle ruleMust g'.atoms.size id' := by
  have hentering := computes_entering h.left cycle ruleMust
  rw [h.ruleNullable_eq] at hentering
  exact congrArg Prod.snd
    (hid.value_eq (entering_flat _ cycle ruleMust) hentering
      (computes_entering h.right cycle ruleMust))

theorem ruleMustEnter_eq (h : Alike g g') (cycle : SortedSet RuleId) (depth : Nat) :
    ruleMustEnter g.leftEdge cycle depth = ruleMustEnter g'.leftEdge cycle depth := by
  induction depth with
  | zero => rfl
  | succ depth ih =>
      funext r visited
      rw [ruleMustEnter, ruleMustEnter, ih]
      rcases h.rule_cases r with ⟨hrule, hrule'⟩ | ⟨rule, rule', hrule, hrule', -, hbody⟩
      · rw [show g.leftEdge.grammar.rules[r]? = none from hrule,
          show g'.leftEdge.grammar.rules[r]? = none from hrule']
      · rw [show g.leftEdge.grammar.rules[r]? = some rule from hrule,
          show g'.leftEdge.grammar.rules[r]? = some rule' from hrule']
        dsimp only
        rw [show g.leftEdge.grammar = g from rfl, show g'.leftEdge.grammar = g' from rfl,
          h.atomMustEnter_eq cycle _ hbody]

theorem ruleName_eq (h : Alike g g') : g.ruleName = g'.ruleName := by
  funext r
  rw [ruleName, ruleName]
  rcases h.rule_cases r with ⟨hrule, hrule'⟩ | ⟨rule, rule', hrule, hrule', hname, -⟩
  · rw [hrule, hrule']
  · rw [hrule, hrule']
    exact hname

theorem isStuck_eq (h : Alike g g') (cycle : SortedSet RuleId) :
    g.leftEdge.isStuck cycle = g'.leftEdge.isStuck cycle := by
  rw [isStuck, isStuck, show g.leftEdge.grammar = g from rfl,
    show g'.leftEdge.grammar = g' from rfl, h.ruleMustEnter_eq, h.size]
  congr 1
  funext r
  rcases h.rule_cases r with ⟨hrule, hrule'⟩ | ⟨rule, rule', hrule, hrule', -, hbody⟩
  · rw [hrule, hrule']
  · rw [hrule, hrule']
    dsimp only
    rw [h.atomMustEnter_eq cycle _ hbody]

/-- The same cycles of left recursion are hopeless. -/
theorem unresolvable_eq (h : Alike g g') : g.leftEdge.unresolvable = g'.leftEdge.unresolvable := by
  have hreach : g.leftEdge.reachOf = g'.leftEdge.reachOf := by
    funext r
    rw [LeftEdge.reachOf, LeftEdge.reachOf, show g.leftEdge.reach = g.leftReach g.nullable from rfl,
      h.leftReach_eq]
    rfl
  have hcycle : g.leftEdge.cycleOf = g'.leftEdge.cycleOf := by
    funext r
    rw [cycleOf, cycleOf, hreach]
  have hrecursive : g.leftEdge.isLeftRecursive = g'.leftEdge.isLeftRecursive := by
    funext r
    rw [isLeftRecursive, isLeftRecursive, hreach]
  rw [unresolvable, unresolvable, show g.leftEdge.grammar = g from rfl,
    show g'.leftEdge.grammar = g' from rfl, h.size, hrecursive, hcycle, h.ruleName_eq,
    funext h.isStuck_eq]

end Grammar.Alike

end Seedling
