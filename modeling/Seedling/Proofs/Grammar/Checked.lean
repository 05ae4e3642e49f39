import Seedling.Grammar.Lint
import Seedling.Proofs.Grammar.Validation

/-!
The analysis of a grammar with nothing taken on trust. Every step is made here as the analysis makes
it, except that a number outside its table ends it, and so does a recursion or a loop that comes to
its bound. Where a search may stop early, what it might still have looked up is looked up as well.

Main statement: for tables in order the analysis does not end this way, and it finds what the
plain one finds. So it never looks outside a table, and no bound takes part in what it finds.
-/

namespace Seedling

namespace Grammar

/-- All numbers are in range, and each pattern has a recognizer. -/
structure Ready (g : Grammar) : Prop extends g.WellFormed where
  recognizer : ∀ {id : AtomId} {p : String}, g.atoms[id]? = some (.pattern p) →
    ∃ m, g.matchers[id]? = some (some m)

theorem InOrder.ready {atoms : Array Atom} {rules : Array Rule} {root : RuleId}
    (h : InOrder atoms rules root) : (compiled atoms rules root).Ready where
  toWellFormed := assemble_wellFormed h.assemble_eq_ok
  recognizer {id p} hatom := by
    change atoms[id]? = some (.pattern p) at hatom
    obtain ⟨r, hr⟩ := h.parses (Array.mem_of_getElem? hatom)
    refine ⟨r.recognizer, ?_⟩
    rw [compiled, Array.getElem?_map, hatom, Option.map_some, matcherOf, patternMatcher, hr]

/-- What holds of an atom as soon as it holds of its operands with one level less holds of all
atoms, given a level for each. -/
theorem Ready.atom_induction {g : Grammar} (hg : g.Ready) {P : Nat → AtomId → Prop}
    (h : ∀ {bound : Nat} {id : AtomId} {atom : Atom}, id < bound + 1 → bound + 1 ≤ g.atoms.size →
      g.atoms[id]? = some atom → (∀ c ∈ atom.children, P bound c) → P (bound + 1) id)
    {bound : Nat} {id : AtomId} (hid : id < bound) (hbound : bound ≤ g.atoms.size) :
    P bound id := by
  induction bound generalizing id with
  | zero => exact absurd hid (Nat.not_lt_zero id)
  | succ bound ih =>
      have hatom := Array.getElem?_eq_getElem (Nat.lt_of_lt_of_le hid hbound)
      refine h hid hbound hatom fun c hc => ih ?_ (Nat.le_of_succ_le hbound)
      exact Nat.lt_of_lt_of_le (hg.child_lt hatom c hc) (Nat.le_of_lt_succ hid)

theorem Ready.body_lt_of_mem {g : Grammar} (hg : g.Ready) {rule : Rule} (h : rule ∈ g.rules) :
    rule.body < g.atoms.size := by
  obtain ⟨r, hr⟩ := Array.getElem?_of_mem h
  exact hg.body_lt hr

end Grammar

namespace Checked

open Grammar (isNullableIn)
open LeftEdge (Verdict)

/-! ### Searches -/

section Searches

variable {α β : Type}

/-- Whether all of a list pass a test that may fail to answer. -/
def allOf (test : α → Option Bool) (l : List α) : Option Bool := do
  return (← l.mapM test).all id

def anyOf (test : α → Option Bool) (l : List α) : Option Bool := do
  return (← l.mapM test).any id

/-- The place of the first that passes a test that may fail to answer. -/
def placeOf (test : α → Option Bool) (l : List α) : Option (Option Nat) := do
  return (← l.mapM test).findIdx? id

/-- What there is for each of a list, with steps that may fail. -/
def collect (step : α → Option (Option β)) (l : List α) : Option (List β) := do
  return (← l.mapM step).filterMap id

variable {test : α → Option Bool} {test' : α → Bool} {l : List α}

theorem allOf_eq (h : ∀ a ∈ l, test a = some (test' a)) : allOf test l = some (l.all test') := by
  rw [allOf, Grammar.mapM_eq_pure h]
  change some ((l.map test').all id) = _
  rw [List.all_map, Function.id_comp]

theorem anyOf_eq (h : ∀ a ∈ l, test a = some (test' a)) : anyOf test l = some (l.any test') := by
  rw [anyOf, Grammar.mapM_eq_pure h]
  change some ((l.map test').any id) = _
  rw [List.any_map, Function.id_comp]

theorem placeOf_eq (h : ∀ a ∈ l, test a = some (test' a)) :
    placeOf test l = some (l.findIdx? test') := by
  rw [placeOf, Grammar.mapM_eq_pure h]
  change some ((l.map test').findIdx? id) = _
  rw [List.findIdx?_map, Function.id_comp]

theorem collect_eq {step : α → Option (Option β)} {step' : α → Option β}
    (h : ∀ a ∈ l, step a = some (step' a)) : collect step l = some (l.filterMap step') := by
  rw [collect, Grammar.mapM_eq_pure h]
  change some ((l.map step').filterMap id) = _
  rw [List.filterMap_map, Function.id_comp]

theorem foldlM_eq {f : β → α → Option β} {p : β → α → β} {P : β → Prop}
    (h : ∀ b, P b → ∀ a ∈ l, f b a = some (p b a) ∧ P (p b a)) {b : β} (hb : P b) :
    l.foldlM f b = some (l.foldl p b) ∧ P (l.foldl p b) := by
  induction l generalizing b with
  | nil => exact ⟨rfl, hb⟩
  | cons a l ih =>
      obtain ⟨ha, hp⟩ := h b hb a List.mem_cons_self
      rw [List.foldlM_cons, ha, List.foldl_cons]
      exact ih (fun b hb a' ha' => h b hb a' (List.mem_cons_of_mem a ha')) hp

theorem mapM_array_eq {f : α → Option β} {p : α → β} {xs : Array α}
    (h : ∀ a ∈ xs, f a = some (p a)) : xs.mapM f = some (xs.map p) := by
  rw [Array.mapM_eq_mapM_toList,
    Grammar.mapM_eq_pure (g := p) fun a ha => h a (Array.mem_toList_iff.1 ha), ← Array.toList_map]
  rfl

end Searches

/-! ### Nullable atoms -/

def nullableStep (g : Grammar) (known : Array Bool) (id : AtomId) : Option Bool := do
  match ← g.atoms[id]? with
  | .rule rule => known[(← g.rules[rule]?).body]?
  | .literal text => return text.isEmpty
  | .pattern _ => return (← (← g.matchers[id]?)).dfa.isFinal 0
  | .token _ => return false
  | .sequence atoms => allOf (known[·]?) atoms
  | .choice atoms => anyOf (known[·]?) atoms
  | .repetition atom min _ => return min = 0 || (← known[atom]?)
  | .lookahead .. => return true
  | .discard atom => known[atom]?
  | .splice atom => known[atom]?

def nullablePass (g : Grammar) (known : Array Bool) : Option (Array Bool) :=
  (List.range g.atoms.size).foldlM
    (fun known id => do
      let old ← known[id]?
      let new ← nullableStep g known id
      return if !old && new then known.setIfInBounds id true else known)
    known

def stabilize (g : Grammar) : Nat → Array Bool → Option (Array Bool)
  | 0, _ => none
  | rounds + 1, known => do
      let next ← nullablePass g known
      if next = known then return known else stabilize g rounds next

def nullable (g : Grammar) : Option (Array Bool) :=
  stabilize g (g.atoms.size + 1) (Array.replicate g.atoms.size false)

section Nullable

variable {g : Grammar} {known : Array Bool}

theorem getElem?_known {id : AtomId} (hid : id < known.size) :
    known[id]? = some (isNullableIn known id) := by
  rw [isNullableIn, Array.getElem?_eq_getElem hid, Option.getD_some]

theorem nullableStep_eq (hg : g.Ready) (hsize : known.size = g.atoms.size) {id : AtomId}
    (hid : id < g.atoms.size) : nullableStep g known id = some (g.nullableStep known id) := by
  have hatom := Array.getElem?_eq_getElem hid
  generalize g.atoms[id] = atom at hatom
  have hchild : ∀ c ∈ atom.children, c < known.size := fun c hc =>
    hsize ▸ Nat.lt_trans (hg.child_lt hatom c hc) hid
  simp only [nullableStep, Grammar.nullableStep, hatom, Option.bind_eq_bind, Option.bind_some]
  cases atom with
  | rule rule =>
      have hrule := Array.getElem?_eq_getElem (hg.rule_lt hatom)
      simp only [hrule, Option.bind_some, Option.map_some, Option.getD_some]
      exact getElem?_known (hsize ▸ hg.body_lt hrule)
  | literal | token | lookahead => rfl
  | pattern p =>
      obtain ⟨m, hm⟩ := hg.recognizer hatom
      simp only [Grammar.matcher?, hm, Option.bind_some, Option.join_some, Option.map_some,
        Option.getD_some]
      rfl
  | sequence atoms => exact allOf_eq fun a ha => getElem?_known (hchild a ha)
  | choice atoms => exact anyOf_eq fun a ha => getElem?_known (hchild a ha)
  | repetition a =>
      simp only [getElem?_known (hchild a List.mem_cons_self), Option.bind_some]
      rfl
  | discard a | splice a => exact getElem?_known (hchild a List.mem_cons_self)

theorem nullablePass_eq (hg : g.Ready) (hsize : known.size = g.atoms.size) :
    nullablePass g known = some (g.nullablePass known) ∧
      (g.nullablePass known).size = g.atoms.size := by
  refine foldlM_eq (P := fun known : Array Bool => known.size = g.atoms.size)
    (fun known hsize id hid => ?_) hsize
  have hlt : id < g.atoms.size := List.mem_range.1 hid
  rw [getElem?_known (hsize ▸ hlt), nullableStep_eq hg hsize hlt]
  refine ⟨rfl, ?_⟩
  split
  · rw [Array.size_setIfInBounds, hsize]
  · exact hsize

/-- There are passes enough, since each but the last finds an atom. -/
theorem stabilize_eq (hg : g.Ready) (rounds : Nat) (hsize : known.size = g.atoms.size)
    (hrounds : g.atoms.size < rounds + (Grammar.knownNullable known).card) :
    stabilize g rounds known = some (g.stabilize rounds known) ∧
      (g.stabilize rounds known).size = g.atoms.size := by
  induction rounds generalizing known with
  | zero =>
      have hle := @Grammar.card_knownNullable_le known
      omega
  | succ rounds ih =>
      obtain ⟨hpass, hsize'⟩ := nullablePass_eq hg hsize
      obtain ⟨-, hcard⟩ := Grammar.nullablePass_spec (g := g) (List.range g.atoms.size) known
        fun i hi => hsize ▸ List.mem_range.1 hi
      change _ < (Grammar.knownNullable (g.nullablePass known)).card ∨ g.nullablePass known = _ ∧ _
        at hcard
      rw [stabilize, hpass, Option.bind_eq_bind, Option.bind_some, Grammar.stabilize]
      by_cases heq : g.nullablePass known = known
      · rw [if_pos heq, if_pos heq]
        exact ⟨rfl, hsize⟩
      · rw [if_neg heq, if_neg heq]
        have hmore := hcard.resolve_right fun h => heq h.1
        exact ih hsize' (by omega)

theorem nullable_eq (hg : g.Ready) :
    nullable g = some g.nullable ∧ g.nullable.size = g.atoms.size :=
  stabilize_eq hg (g.atoms.size + 1) Array.size_replicate (by omega)

end Nullable

/-! ### Left calls -/

def sequenceCalls (known : Array Bool) (calls : AtomId → Option (SortedSet RuleId)) :
    List AtomId → Option (SortedSet RuleId)
  | [] => some .empty
  | a :: rest => do
      if ← known[a]? then return (← calls a).union (← sequenceCalls known calls rest) else calls a

def leftCalls (g : Grammar) (known : Array Bool) : Nat → AtomId → Option (SortedSet RuleId)
  | 0, _ => none
  | bound + 1, id => do
      match ← g.atoms[id]? with
      | .rule rule => return .singleton rule
      | .sequence atoms => sequenceCalls known (leftCalls g known bound) atoms
      | .choice atoms =>
          atoms.foldlM (fun calls a => return calls.union (← leftCalls g known bound a)) .empty
      | .repetition atom _ _ => leftCalls g known bound atom
      | .lookahead atom _ => leftCalls g known bound atom
      | .discard atom => leftCalls g known bound atom
      | .splice atom => leftCalls g known bound atom
      | _ => return .empty

def directCalls (g : Grammar) (known : Array Bool) : Option (Array (SortedSet RuleId)) :=
  g.rules.mapM fun r => leftCalls g known g.atoms.size r.body

section Calls

variable {g : Grammar} {known : Array Bool}

theorem sequenceCalls_eq {calls : AtomId → Option (SortedSet RuleId)}
    {calls' : AtomId → SortedSet RuleId} {atoms : List AtomId}
    (h : ∀ a ∈ atoms, a < known.size ∧ calls a = some (calls' a)) :
    sequenceCalls known calls atoms = some (Grammar.sequenceCalls known calls' atoms) := by
  induction atoms with
  | nil => rfl
  | cons a rest ih =>
      rw [List.forall_mem_cons] at h
      rw [sequenceCalls, Grammar.sequenceCalls, getElem?_known h.1.1, h.1.2, ih h.2]
      cases isNullableIn known a <;> rfl

theorem foldlM_union_eq {calls : AtomId → Option (SortedSet RuleId)}
    {calls' : AtomId → SortedSet RuleId}
    {atoms : List AtomId} (h : ∀ a ∈ atoms, calls a = some (calls' a)) (all : SortedSet RuleId) :
    atoms.foldlM (fun all a => return all.union (← calls a)) all =
      some (atoms.foldl (fun all a => all.union (calls' a)) all) := by
  refine (foldlM_eq (P := fun _ => True) (fun all _ a ha => ⟨?_, trivial⟩) trivial).1
  rw [h a ha]
  rfl

theorem leftCalls_eq (hg : g.Ready) (hsize : known.size = g.atoms.size) {bound : Nat} {id : AtomId}
    (hid : id < bound) (hbound : bound ≤ g.atoms.size) :
    leftCalls g known bound id = some (g.leftCalls known bound id) := by
  refine hg.atom_induction (P := fun bound id =>
    leftCalls g known bound id = some (g.leftCalls known bound id))
      (fun {bound id atom} hid hbound hatom hcalls => ?_) hid hbound
  simp only [leftCalls, Grammar.leftCalls, hatom, Option.bind_eq_bind, Option.bind_some]
  cases atom with
  | rule | literal | pattern | token => rfl
  | sequence atoms =>
      exact sequenceCalls_eq fun a ha =>
        ⟨hsize ▸ Nat.lt_trans (hg.child_lt hatom a ha) (Nat.lt_of_lt_of_le hid hbound), hcalls a ha⟩
  | choice atoms => exact foldlM_union_eq hcalls .empty
  | repetition a | lookahead a | discard a | splice a => exact hcalls a List.mem_cons_self

theorem directCalls_eq (hg : g.Ready) (hsize : known.size = g.atoms.size) :
    directCalls g known = some (g.directCalls known) :=
  mapM_array_eq fun _ hr => leftCalls_eq hg hsize (hg.body_lt_of_mem hr) (Nat.le_refl _)

end Calls

/-! ### Reach -/

def explore (next : Nat → Option (SortedSet Nat)) :
    Nat → List Nat → Std.TreeSet Nat → Option (Std.TreeSet Nat)
  | 0, _, _ => none
  | _ + 1, [], seen => some seen
  | bound + 1, n :: pending, seen => do
      let fresh := (← next n).toList.filter fun m => !seen.contains m
      explore next bound (fresh ++ pending) (seen.insertMany fresh)

def closure (next : Nat → Option (SortedSet Nat)) (count : Nat) (seeds : SortedSet Nat) :
    Option (SortedSet Nat) := do
  return Reachability.members
    (← explore next (count + seeds.size + 1) seeds.toList (.ofList seeds.toList))

def leftReach (g : Grammar) (known : Array Bool) : Option (Array (SortedSet RuleId)) := do
  let direct ← directCalls g known
  direct.mapM (closure (direct[·]?) g.rules.size)

def leftEdge (g : Grammar) : Option LeftEdge := do
  let known ← nullable g
  return ⟨g, known, ← leftReach g known⟩

section Reach

variable {next : Nat → Option (SortedSet Nat)} {next' : Nat → SortedSet Nat} {count : Nat}

/-- The search looks at numbers below the bound only, and it has rounds for all of them. -/
theorem explore_eq (hsome : ∀ n < count, next n = some (next' n))
    (hnext : ∀ n, ∀ m ∈ next' n, m < count) (bound : Nat) (pending : List Nat)
    (seen : Std.TreeSet Nat) (hpending : ∀ n ∈ pending, n < count)
    (hbound : pending.length + (Reachability.unseen count seen).card < bound) :
    explore next bound pending seen = some (Reachability.explore next' bound pending seen) := by
  induction bound generalizing pending seen with
  | zero => exact absurd hbound (Nat.not_lt_zero _)
  | succ bound ih =>
      cases pending with
      | nil => rfl
      | cons n pending =>
          rw [List.forall_mem_cons] at hpending
          rw [explore, Reachability.explore, hsome n hpending.1, Option.bind_eq_bind,
            Option.bind_some]
          have hcard := Reachability.card_unseen_insertMany (hnext n) seen
          refine ih _ _ (fun m hm => ?_) ?_
          · rcases List.mem_append.1 hm with hm | hm
            · exact hnext n m (List.mem_filter.1 hm).1
            · exact hpending.2 m hm
          · change (Reachability.fresh next' n seen ++ pending).length +
              (Reachability.unseen count
                (seen.insertMany (Reachability.fresh next' n seen))).card < bound
            rw [List.length_cons] at hbound
            rw [List.length_append]
            omega

theorem closure_eq (hsome : ∀ n < count, next n = some (next' n))
    (hnext : ∀ n, ∀ m ∈ next' n, m < count) {seeds : SortedSet Nat}
    (hseeds : ∀ n ∈ seeds, n < count) :
    closure next count seeds = some (Reachability.closure next' count seeds) := by
  have hcard := @Reachability.card_unseen_le count (.ofList seeds.toList)
  rw [closure, explore_eq hsome hnext _ _ _ hseeds (by rw [SortedSet.size]; omega)]
  rfl

theorem closure_table_eq {table : Array (SortedSet Nat)} (hsize : table.size = count)
    (hlt : ∀ edges ∈ table, ∀ m ∈ edges, m < count) {seeds : SortedSet Nat}
    (hseeds : ∀ n ∈ seeds, n < count) :
    closure (table[·]?) count seeds =
      some (Reachability.closure (fun n => table[n]?.getD .empty) count seeds) := by
  refine closure_eq (fun n hn => ?_) (fun n m hm => ?_) hseeds
  · have hn' : n < table.size := hsize ▸ hn
    rw [Array.getElem?_eq_getElem hn', Option.getD_some]
  · cases hedges : table[n]? with
    | none =>
        rw [hedges] at hm
        exact absurd hm (SortedSet.not_mem_empty m)
    | some edges =>
        rw [hedges] at hm
        exact hlt edges (Array.mem_of_getElem? hedges) m hm

variable {g : Grammar}

theorem leftReach_eq (hg : g.Ready) : leftReach g g.nullable = some (g.leftReach g.nullable) := by
  have hsize : (g.directCalls g.nullable).size = g.rules.size := by
    rw [Grammar.directCalls, Array.size_map]
  have hlt : ∀ calls ∈ g.directCalls g.nullable, ∀ r ∈ calls, r < g.rules.size := by
    intro calls hcalls r hr
    obtain ⟨rule, -, rfl⟩ := Array.mem_map.1 hcalls
    exact hg.lt_of_mem_callsOf hr
  rw [leftReach, directCalls_eq hg (nullable_eq hg).2, Option.bind_eq_bind, Option.bind_some]
  exact mapM_array_eq fun calls hcalls => closure_table_eq hsize hlt (hlt calls hcalls)

theorem leftEdge_eq (hg : g.Ready) : leftEdge g = some g.leftEdge := by
  rw [leftEdge, (nullable_eq hg).1, Option.bind_eq_bind, Option.bind_some, leftReach_eq hg]
  rfl

end Reach

/-- What is known of a grammar has the sizes of its tables, and only rules are reached. -/
structure Sized (e : LeftEdge) : Prop where
  ready : e.grammar.Ready
  nullable : e.nullable.size = e.grammar.atoms.size
  reach : e.reach.size = e.grammar.rules.size
  reach_lt : ∀ {r r' : RuleId}, r' ∈ e.reachOf r → r' < e.grammar.rules.size

theorem sized_leftEdge {g : Grammar} (hg : g.Ready) : Sized g.leftEdge where
  ready := hg
  nullable := (nullable_eq hg).2
  reach := by
    change (g.leftReach g.nullable).size = g.rules.size
    rw [Grammar.leftReach, Array.size_map, Grammar.directCalls, Array.size_map]
  reach_lt {r r'} h := by
    obtain ⟨c, hc, hreaches⟩ := hg.mem_reachOf.1 h
    cases hreaches with
    | refl => exact hg.lt_of_mem_ruleCalls hc
    | tail _ hstep => exact hg.lt_of_mem_ruleCalls hstep

/-! ### Verdicts -/

def sequenceMustEnter (isNullable : AtomId → Option Bool)
    (must : AtomId → SortedSet RuleId → Option Verdict) :
    List AtomId → SortedSet RuleId → Option Verdict
  | [], visited => some (false, visited)
  | a :: rest, visited => do
      match ← must a visited with
      | (true, visited) => return (true, visited)
      | (false, visited) =>
          if ← isNullable a then sequenceMustEnter isNullable must rest visited
          else return (false, visited)

def allHold (holds : AtomId → SortedSet RuleId → Option Verdict) :
    List AtomId → SortedSet RuleId → Option Verdict
  | [], visited => some (true, visited)
  | a :: rest, visited => do
      match ← holds a visited with
      | (true, visited) => allHold holds rest visited
      | (false, visited) => return (false, visited)

def anyHolds (holds : AtomId → SortedSet RuleId → Option Verdict) :
    List AtomId → SortedSet RuleId → Option Verdict
  | [], visited => some (false, visited)
  | a :: rest, visited => do
      match ← holds a visited with
      | (true, visited) => return (true, visited)
      | (false, visited) => anyHolds holds rest visited

/-- The verdict on a rule, which is looked into once, given the verdict on atoms. With no depth left
the rule must have been looked into before. -/
def lookInto (e : LeftEdge)
    (judge : (RuleId → SortedSet RuleId → Option Verdict) →
      AtomId → SortedSet RuleId → Option Verdict) :
    Nat → RuleId → SortedSet RuleId → Option Verdict
  | 0, rule, visited => if visited.contains rule then some (false, visited) else none
  | depth + 1, rule, visited =>
      if visited.contains rule then some (false, visited)
      else do
        judge (lookInto e judge depth) (← e.grammar.rules[rule]?).body (visited.insert rule)

def atomMustEnter (e : LeftEdge) (cycle : SortedSet RuleId)
    (ruleMust : RuleId → SortedSet RuleId → Option Verdict) :
    Nat → AtomId → SortedSet RuleId → Option Verdict
  | 0, _, _ => none
  | bound + 1, id, visited => do
      let must := atomMustEnter e cycle ruleMust bound
      match ← e.grammar.atoms[id]? with
      | .rule rule => if cycle.contains rule then return (true, visited) else ruleMust rule visited
      | .sequence atoms => sequenceMustEnter (e.nullable[·]?) must atoms visited
      | .choice atoms => allHold must atoms visited
      | .repetition atom min _ => if 0 < min then must atom visited else return (false, visited)
      | .lookahead atom positive => if positive then must atom visited else return (false, visited)
      | .discard atom => must atom visited
      | .splice atom => must atom visited
      | _ => return (false, visited)

def ruleMustEnter (e : LeftEdge) (cycle : SortedSet RuleId) :
    Nat → RuleId → SortedSet RuleId → Option Verdict :=
  lookInto e fun ruleMust => atomMustEnter e cycle ruleMust e.grammar.atoms.size

def atomSucceeds (e : LeftEdge) (ruleSucceeds : RuleId → SortedSet RuleId → Option Verdict) :
    Nat → AtomId → SortedSet RuleId → Option Verdict
  | 0, _, _ => none
  | bound + 1, id, visited => do
      let succeeds := atomSucceeds e ruleSucceeds bound
      match ← e.grammar.atoms[id]? with
      | .rule rule => ruleSucceeds rule visited
      | .literal text => return (text.isEmpty, visited)
      | .pattern _ => return (← e.nullable[id]?, visited)
      | .token _ => return (false, visited)
      | .sequence atoms => allHold succeeds atoms visited
      | .choice atoms => anyHolds succeeds atoms visited
      | .repetition atom min _ => if min = 0 then return (true, visited) else succeeds atom visited
      | .lookahead atom positive =>
          if positive then succeeds atom visited else return (false, visited)
      | .discard atom => succeeds atom visited
      | .splice atom => succeeds atom visited

def ruleSucceeds (e : LeftEdge) : Nat → RuleId → SortedSet RuleId → Option Verdict :=
  lookInto e fun ruleSucceeds => atomSucceeds e ruleSucceeds e.grammar.atoms.size

/-- The rules below `count` that have not been looked into. -/
def unvisited (count : Nat) (visited : SortedSet RuleId) : Finset RuleId :=
  (Finset.range count).filter fun r => r ∉ visited

theorem card_unvisited_insert {count : Nat} {visited : SortedSet RuleId} {rule : RuleId}
    (hrule : rule < count) (hnew : rule ∉ visited) :
    (unvisited count (visited.insert rule)).card < (unvisited count visited).card := by
  apply Finset.card_lt_card
  rw [Finset.ssubset_iff_of_subset]
  · exact ⟨rule, by simp [unvisited, hrule, hnew], by simp [unvisited]⟩
  · intro r hr
    simp only [unvisited, Finset.mem_filter, SortedSet.mem_insert, not_or] at hr ⊢
    exact ⟨hr.1, hr.2.2⟩

/-- Where at most `depth` rules are left to be looked into, the verdict is the plain one, and no
more are left after it. -/
def Judged (count depth : Nat) (checked : SortedSet RuleId → Option Verdict)
    (plain : SortedSet RuleId → Verdict) : Prop :=
  ∀ visited, (unvisited count visited).card ≤ depth →
    checked visited = some (plain visited) ∧ (unvisited count (plain visited).2).card ≤ depth

section Verdicts

variable {e : LeftEdge} {count depth : Nat}
  {holds : AtomId → SortedSet RuleId → Option Verdict} {holds' : AtomId →
    SortedSet RuleId → Verdict}
  {atoms : List AtomId}

theorem allHold_judged (h : ∀ a ∈ atoms, Judged count depth (holds a) (holds' a)) :
    Judged count depth (allHold holds atoms) (LeftEdge.allHold holds' atoms) := by
  induction atoms with
  | nil => exact fun _ hleft => ⟨rfl, hleft⟩
  | cons a rest ih =>
      intro visited hleft
      rw [List.forall_mem_cons] at h
      obtain ⟨heq, hleft'⟩ := h.1 visited hleft
      rw [allHold, LeftEdge.allHold, heq]
      generalize holds' a visited = verdict at hleft' ⊢
      obtain ⟨_ | _, visited'⟩ := verdict
      · exact ⟨rfl, hleft'⟩
      · exact ih h.2 visited' hleft'

theorem anyHolds_judged (h : ∀ a ∈ atoms, Judged count depth (holds a) (holds' a)) :
    Judged count depth (anyHolds holds atoms) (LeftEdge.anyHolds holds' atoms) := by
  induction atoms with
  | nil => exact fun _ hleft => ⟨rfl, hleft⟩
  | cons a rest ih =>
      intro visited hleft
      rw [List.forall_mem_cons] at h
      obtain ⟨heq, hleft'⟩ := h.1 visited hleft
      rw [anyHolds, LeftEdge.anyHolds, heq]
      generalize holds' a visited = verdict at hleft' ⊢
      obtain ⟨_ | _, visited'⟩ := verdict
      · exact ih h.2 visited' hleft'
      · exact ⟨rfl, hleft'⟩

theorem sequenceMustEnter_judged {isNullable : AtomId → Option Bool} {isNullable' : AtomId → Bool}
    (hnullable : ∀ a ∈ atoms, isNullable a = some (isNullable' a))
    (h : ∀ a ∈ atoms, Judged count depth (holds a) (holds' a)) :
    Judged count depth (sequenceMustEnter isNullable holds atoms)
      (LeftEdge.sequenceMustEnter isNullable' holds' atoms) := by
  induction atoms with
  | nil => exact fun _ hleft => ⟨rfl, hleft⟩
  | cons a rest ih =>
      intro visited hleft
      rw [List.forall_mem_cons] at h hnullable
      obtain ⟨heq, hleft'⟩ := h.1 visited hleft
      rw [sequenceMustEnter, LeftEdge.sequenceMustEnter, heq]
      generalize holds' a visited = verdict at hleft' ⊢
      obtain ⟨_ | _, visited'⟩ := verdict
      · simp only [Option.bind_eq_bind, Option.bind_some, hnullable.1]
        cases isNullable' a with
        | false => exact ⟨rfl, hleft'⟩
        | true => exact ih hnullable.2 h.2 visited' hleft'
      · exact ⟨rfl, hleft'⟩

/-- Every rule inside another is one more that has been looked into, so the depth suffices. -/
theorem lookInto_judged (he : e.grammar.Ready)
    {judge : (RuleId → SortedSet RuleId → Option Verdict) →
      AtomId → SortedSet RuleId → Option Verdict}
    (judge' : (RuleId → SortedSet RuleId → Verdict) → AtomId → SortedSet RuleId → Verdict)
    {plain : Nat → RuleId → SortedSet RuleId → Verdict}
    (hzero : ∀ r visited, plain 0 r visited = (false, visited))
    (hsucc : ∀ depth r visited, plain (depth + 1) r visited =
      if visited.contains r then (false, visited)
      else match e.grammar.rules[r]? with
        | none => (false, visited)
        | some rule => judge' (plain depth) rule.body (visited.insert r))
    (hjudge : ∀ depth,
      (∀ r < e.grammar.rules.size,
        Judged e.grammar.rules.size depth (lookInto e judge depth r) (plain depth r)) →
      ∀ a < e.grammar.atoms.size,
        Judged e.grammar.rules.size depth (judge (lookInto e judge depth) a)
          (judge' (plain depth) a))
    (depth : Nat) :
    ∀ r < e.grammar.rules.size,
      Judged e.grammar.rules.size depth (lookInto e judge depth r) (plain depth r) := by
  induction depth with
  | zero =>
      intro r hr visited hleft
      have hmem : visited.contains r = true := by
        by_contra hnew
        have hcard := card_unvisited_insert hr fun hmem => hnew (decide_eq_true hmem)
        omega
      rw [lookInto, hzero, if_pos hmem]
      exact ⟨rfl, hleft⟩
  | succ depth ih =>
      intro r hr visited hleft
      rw [lookInto, hsucc]
      by_cases hmem : visited.contains r = true
      · rw [if_pos hmem, if_pos hmem]
        exact ⟨rfl, hleft⟩
      · have hcard := card_unvisited_insert hr fun h => hmem (decide_eq_true h)
        have hrule := Array.getElem?_eq_getElem hr
        generalize e.grammar.rules[r] = rule at hrule
        obtain ⟨heq, hleft'⟩ := hjudge depth ih rule.body (he.body_lt hrule) (visited.insert r)
          (Nat.le_of_lt_succ (Nat.lt_of_lt_of_le hcard hleft))
        rw [if_neg hmem, if_neg hmem, hrule]
        exact ⟨heq, Nat.le_succ_of_le hleft'⟩

theorem atomMustEnter_judged (he : Sized e) (cycle : SortedSet RuleId)
    {ruleMust : RuleId → SortedSet RuleId → Option Verdict}
    {ruleMust' : RuleId → SortedSet RuleId → Verdict}
    (hrule : ∀ r < e.grammar.rules.size, Judged count depth (ruleMust r) (ruleMust' r))
    {bound : Nat} {id : AtomId} (hid : id < bound) (hbound : bound ≤ e.grammar.atoms.size) :
    Judged count depth (atomMustEnter e cycle ruleMust bound id)
      (e.atomMustEnter cycle ruleMust' bound id) := by
  refine he.ready.atom_induction (P := fun bound id => Judged count depth
    (atomMustEnter e cycle ruleMust bound id) (e.atomMustEnter cycle ruleMust' bound id))
    (fun {bound id atom} hid hbound hatom hmust visited hleft => ?_) hid hbound
  simp only [atomMustEnter, LeftEdge.atomMustEnter, hatom, Option.bind_eq_bind, Option.bind_some]
  cases atom with
  | rule r =>
      dsimp only
      split
      · exact ⟨rfl, hleft⟩
      · exact hrule r (he.ready.rule_lt hatom) visited hleft
  | literal | pattern | token => exact ⟨rfl, hleft⟩
  | sequence atoms =>
      refine sequenceMustEnter_judged (fun a ha => getElem?_known ?_) hmust visited hleft
      exact he.nullable ▸ Nat.lt_trans (he.ready.child_lt hatom a ha)
        (Nat.lt_of_lt_of_le hid hbound)
  | choice atoms => exact allHold_judged hmust visited hleft
  | repetition a min max =>
      dsimp only
      split
      · exact hmust a List.mem_cons_self visited hleft
      · exact ⟨rfl, hleft⟩
  | lookahead a positive =>
      cases positive with
      | true => exact hmust a List.mem_cons_self visited hleft
      | false => exact ⟨rfl, hleft⟩
  | discard a | splice a => exact hmust a List.mem_cons_self visited hleft

theorem atomSucceeds_judged (he : Sized e)
    {ruleSucceeds : RuleId → SortedSet RuleId → Option Verdict}
    {ruleSucceeds' : RuleId → SortedSet RuleId → Verdict}
    (hrule : ∀ r < e.grammar.rules.size, Judged count depth (ruleSucceeds r) (ruleSucceeds' r))
    {bound : Nat} {id : AtomId} (hid : id < bound) (hbound : bound ≤ e.grammar.atoms.size) :
    Judged count depth (atomSucceeds e ruleSucceeds bound id)
      (e.atomSucceeds ruleSucceeds' bound id) := by
  refine he.ready.atom_induction (P := fun bound id => Judged count depth
    (atomSucceeds e ruleSucceeds bound id) (e.atomSucceeds ruleSucceeds' bound id))
    (fun {bound id atom} hid hbound hatom hsucceeds visited hleft => ?_) hid hbound
  simp only [atomSucceeds, LeftEdge.atomSucceeds, hatom, Option.bind_eq_bind, Option.bind_some]
  cases atom with
  | rule r => exact hrule r (he.ready.rule_lt hatom) visited hleft
  | literal | token => exact ⟨rfl, hleft⟩
  | pattern p =>
      rw [getElem?_known (he.nullable ▸ Nat.lt_of_lt_of_le hid hbound)]
      exact ⟨rfl, hleft⟩
  | sequence atoms => exact allHold_judged hsucceeds visited hleft
  | choice atoms => exact anyHolds_judged hsucceeds visited hleft
  | repetition a min max =>
      dsimp only
      split
      · exact ⟨rfl, hleft⟩
      · exact hsucceeds a List.mem_cons_self visited hleft
  | lookahead a positive =>
      cases positive with
      | true => exact hsucceeds a List.mem_cons_self visited hleft
      | false => exact ⟨rfl, hleft⟩
  | discard a | splice a => exact hsucceeds a List.mem_cons_self visited hleft

theorem ruleMustEnter_judged (he : Sized e) (cycle : SortedSet RuleId) (depth : Nat) :
    ∀ r < e.grammar.rules.size,
      Judged e.grammar.rules.size depth (ruleMustEnter e cycle depth r)
        (e.ruleMustEnter cycle depth r) :=
  lookInto_judged he.ready (fun must => e.atomMustEnter cycle must e.grammar.atoms.size)
    (fun _ _ => rfl) (fun _ _ _ => rfl)
    (fun _ hrule _ ha => atomMustEnter_judged he cycle hrule ha (Nat.le_refl _)) depth

theorem ruleSucceeds_judged (he : Sized e) (depth : Nat) :
    ∀ r < e.grammar.rules.size,
      Judged e.grammar.rules.size depth (ruleSucceeds e depth r) (e.ruleSucceeds depth r) :=
  lookInto_judged he.ready (fun succeeds => e.atomSucceeds succeeds e.grammar.atoms.size)
    (fun _ _ => rfl) (fun _ _ _ => rfl)
    (fun _ hrule _ ha => atomSucceeds_judged he hrule ha (Nat.le_refl _)) depth

theorem Judged.eq_empty {checked : SortedSet RuleId → Option Verdict}
    {plain : SortedSet RuleId → Verdict}
    (h : Judged count count checked plain) : checked .empty = some (plain .empty) := by
  refine (h .empty ?_).1
  have hcard := Finset.card_filter_le (Finset.range count) fun r => r ∉ (.empty : SortedSet RuleId)
  rwa [Finset.card_range] at hcard

end Verdicts

/-! ### Hopeless left recursion -/

def cycleOf (e : LeftEdge) (rule : RuleId) : Option (SortedSet RuleId) := do
  let others ← (← e.reach[rule]?).toList |> collect fun other =>
    return if (← e.reach[other]?).contains rule then some other else none
  return .ofList others

def isStuck (e : LeftEdge) (cycle : SortedSet RuleId) : Option Bool :=
  cycle.toList |> allOf fun rule => do
    let verdict ← atomMustEnter e cycle (ruleMustEnter e cycle e.grammar.rules.size)
      e.grammar.atoms.size (← e.grammar.rules[rule]?).body .empty
    return verdict.1

def ruleName (g : Grammar) (rule : RuleId) : Option String := do
  return (← g.rules[rule]?).name

/-- The names of the rules that a rule is on a cycle with, if the cycle can never begin to match. -/
def hopeless (e : LeftEdge) (rule : RuleId) : Option (Option (List String)) := do
  if (← e.reach[rule]?).contains rule then
    let cycle ← cycleOf e rule
    if ← isStuck e cycle then
      return some (← cycle.toList.mapM (ruleName e.grammar))
    else return none
  else return none

def unresolvable (e : LeftEdge) : Option (Option (List String)) := do
  return (← collect (hopeless e) (List.range e.grammar.rules.size)).head?

section Cycles

variable {e : LeftEdge}

theorem getElem?_reach (he : Sized e) {r : RuleId} (hr : r < e.grammar.rules.size) :
    e.reach[r]? = some (e.reachOf r) := by
  have hlt : r < e.reach.size := he.reach ▸ hr
  rw [LeftEdge.reachOf, Array.getElem?_eq_getElem hlt, Option.getD_some]

theorem cycleOf_eq (he : Sized e) {r : RuleId} (hr : r < e.grammar.rules.size) :
    cycleOf e r = some (e.cycleOf r) := by
  have hothers : (e.reachOf r).toList.mapM (fun other =>
      return if (← e.reach[other]?).contains r then some other else none) =
      some ((e.reachOf r).toList.map fun other =>
        if (e.reachOf other).contains r then some other else none) := by
    refine Grammar.mapM_eq_pure fun other hother => ?_
    rw [getElem?_reach he (he.reach_lt hother)]
    rfl
  rw [cycleOf, getElem?_reach he hr, Option.bind_eq_bind, Option.bind_some, collect, hothers]
  refine congrArg some (SortedSet.ext_mem fun other => ?_)
  simp [LeftEdge.cycleOf, SortedSet.mem_ofList]

theorem lt_of_mem_cycleOf (he : Sized e) {r r' : RuleId} (h : r' ∈ e.cycleOf r) :
    r' < e.grammar.rules.size :=
  he.reach_lt (SortedSet.mem_filter.1 h).1

theorem isStuck_eq (he : Sized e) {cycle : SortedSet RuleId}
    (hcycle : ∀ r ∈ cycle, r < e.grammar.rules.size) :
    isStuck e cycle = some (e.isStuck cycle) := by
  rw [isStuck, LeftEdge.isStuck]
  refine allOf_eq fun r hr => ?_
  have hlt : r < e.grammar.rules.size := hcycle r hr
  have hrule := Array.getElem?_eq_getElem hlt
  generalize e.grammar.rules[r] = rule at hrule
  have hjudged := atomMustEnter_judged he cycle (ruleMustEnter_judged he cycle e.grammar.rules.size)
    (he.ready.body_lt hrule) (Nat.le_refl _)
  simp only [hrule, Option.bind_eq_bind, Option.bind_some, hjudged.eq_empty]
  rfl

theorem hopeless_eq (he : Sized e) {r : RuleId} (hr : r < e.grammar.rules.size) :
    hopeless e r = some (if e.isLeftRecursive r && e.isStuck (e.cycleOf r) then
      some ((e.cycleOf r).toList.map e.grammar.ruleName) else none) := by
  have hnames : (e.cycleOf r).toList.mapM (ruleName e.grammar) =
      some ((e.cycleOf r).toList.map e.grammar.ruleName) := by
    refine Grammar.mapM_eq_pure fun r' hr' => ?_
    rw [ruleName, Grammar.ruleName, Array.getElem?_eq_getElem (lt_of_mem_cycleOf he hr')]
    rfl
  rw [hopeless, getElem?_reach he hr, Option.bind_eq_bind, Option.bind_some,
    ← LeftEdge.isLeftRecursive]
  cases e.isLeftRecursive r with
  | false => rfl
  | true =>
      simp only [if_true, Option.bind_eq_bind, Option.bind_some, cycleOf_eq he hr,
        isStuck_eq he fun _ => lt_of_mem_cycleOf he, hnames, Bool.true_and]
      cases e.isStuck (e.cycleOf r) <;> rfl

theorem unresolvable_eq (he : Sized e) : unresolvable e = some e.unresolvable := by
  rw [unresolvable, collect_eq fun r hr => hopeless_eq he (List.mem_range.1 hr)]
  change some _ = some _
  rw [List.head?_filterMap, LeftEdge.unresolvable]

end Cycles

/-! ### Warnings -/

def sameShape (e : LeftEdge) : Nat → AtomId → AtomId → Option Bool
  | 0, a, b => if a = b then some true else none
  | bound + 1, a, b =>
      if a = b then some true
      else do
        let x ← e.grammar.atoms[a]?
        let y ← e.grammar.atoms[b]?
        let alike ← allOf (fun p => sameShape e bound p.1 p.2) (x.children.zip y.children)
        let same := x.children.length = y.children.length && alike
        return match x, y with
          | .sequence _, .sequence _ => same
          | .choice _, .choice _ => same
          | .discard _, .discard _ => same
          | .splice _, .splice _ => same
          | .repetition _ m n, .repetition _ m' n' => m = m' && n = n' && same
          | .lookahead _ p, .lookahead _ q => p = q && same
          | x, y => x = y

def alwaysSucceeds (e : LeftEdge) (id : AtomId) : Option Bool := do
  let verdict ← atomSucceeds e (ruleSucceeds e e.grammar.rules.size) e.grammar.atoms.size id .empty
  return verdict.1

def duplicates (e : LeftEdge) (atoms : List AtomId) : Option (List Finding) :=
  atoms.zipIdx |> collect fun p => do
    let earlier ← placeOf (fun a => sameShape e e.grammar.atoms.size a p.1) (atoms.take p.2)
    return earlier.map (.duplicateAlternative p.2)

def unreachable (e : LeftEdge) (atoms : List AtomId) : Option (List Finding) := do
  match ← placeOf (alwaysSucceeds e) atoms with
  | none => return []
  | some k =>
      return if k + 1 < atoms.length
        then [.unreachableAlternatives k (atoms.length - k - 1)] else []

def atomFindings (e : LeftEdge) : Atom → Option (List Finding)
  | .repetition atom _ max => do
      let empty ← e.nullable[atom]?
      return if max = some 0 then [.repetitionOfNothing]
        else if empty then [.repetitionOfEmpty]
        else []
  | .choice atoms => return (← duplicates e atoms) ++ (← unreachable e atoms)
  | _ => some []

def findAll (find : AtomId → SortedSet AtomId → Option (List Finding × SortedSet AtomId)) :
    List AtomId → SortedSet AtomId → Option (List Finding × SortedSet AtomId)
  | [], seen => some ([], seen)
  | a :: rest, seen => do
      let (first, seen) ← find a seen
      let (others, seen) ← findAll find rest seen
      return (first ++ others, seen)

def findingsFrom (e : LeftEdge) : Nat → AtomId → SortedSet AtomId →
    Option (List Finding × SortedSet AtomId)
  | 0, _, _ => none
  | bound + 1, id, seen =>
      if seen.contains id then some ([], seen)
      else do
        let atom ← e.grammar.atoms[id]?
        let (below, seen) ← findAll (findingsFrom e bound) atom.children (seen.insert id)
        return ((← atomFindings e atom) ++ below, seen)

def references (e : LeftEdge) : Nat → AtomId → Option (SortedSet RuleId)
  | 0, _ => none
  | bound + 1, id => do
      match ← e.grammar.atoms[id]? with
      | .rule rule => return .singleton rule
      | atom =>
          atom.children.foldlM (fun refs a => return refs.union (← references e bound a)) .empty

def usedRules (e : LeftEdge) : Option (SortedSet RuleId) := do
  let refs ← e.grammar.rules.mapM fun r => references e e.grammar.atoms.size r.body
  closure (refs[·]?) e.grammar.rules.size (.singleton e.grammar.root)

def warnings (e : LeftEdge) : Option (List Warning) := do
  let rules := e.grammar.rules.toList.zipIdx
  let used ← usedRules e
  let recursive ← rules |> collect fun p =>
    return if (← e.reach[p.2]?).contains p.2 then some ⟨p.1.name, .leftRecursion⟩ else none
  let unused := rules.filterMap fun p =>
    if used.contains p.2 then none else some ⟨p.1.name, .unusedRule⟩
  let inside ← rules.mapM fun p => do
    let findings ← findingsFrom e e.grammar.atoms.size p.1.body .empty
    return findings.1.map (Warning.mk p.1.name)
  return recursive ++ unused ++ inside.flatten

section Warnings

variable {e : LeftEdge}

theorem sameShape_eq (he : Sized e) {bound : Nat} (hbound : bound ≤ e.grammar.atoms.size)
    {a b : AtomId}
    (ha : a < bound) (hb : b < bound) : sameShape e bound a b = some (e.sameShape bound a b) := by
  induction bound generalizing a b with
  | zero => exact absurd ha (Nat.not_lt_zero a)
  | succ bound ih =>
      have hlta : a < e.grammar.atoms.size := Nat.lt_of_lt_of_le ha hbound
      have hltb : b < e.grammar.atoms.size := Nat.lt_of_lt_of_le hb hbound
      have hx := Array.getElem?_eq_getElem hlta
      have hy := Array.getElem?_eq_getElem hltb
      generalize e.grammar.atoms[a] = x at hx
      generalize e.grammar.atoms[b] = y at hy
      have hsame : allOf (fun p => sameShape e bound p.1 p.2) (x.children.zip y.children) =
          some ((x.children.zip y.children).all fun p => e.sameShape bound p.1 p.2) := by
        refine allOf_eq fun p hp => ih (Nat.le_of_succ_le hbound) ?_ ?_
        · exact Nat.lt_of_lt_of_le (he.ready.child_lt hx p.1 (List.of_mem_zip hp).1)
            (Nat.le_of_lt_succ ha)
        · exact Nat.lt_of_lt_of_le (he.ready.child_lt hy p.2 (List.of_mem_zip hp).2)
            (Nat.le_of_lt_succ hb)
      rw [sameShape, LeftEdge.sameShape]
      by_cases heq : a = b
      · rw [if_pos heq, if_pos heq]
      · simp only [if_neg heq, hx, hy, Option.bind_eq_bind, Option.bind_some, hsame]
        cases x <;> cases y <;> rfl

theorem alwaysSucceeds_eq (he : Sized e) {id : AtomId} (hid : id < e.grammar.atoms.size) :
    alwaysSucceeds e id = some (e.alwaysSucceeds id) := by
  have hjudged := atomSucceeds_judged he (ruleSucceeds_judged he e.grammar.rules.size) hid
    (Nat.le_refl _)
  rw [alwaysSucceeds, hjudged.eq_empty]
  rfl

theorem duplicates_eq (he : Sized e) {atoms : List AtomId}
    (hatoms : ∀ a ∈ atoms, a < e.grammar.atoms.size) :
    duplicates e atoms = some (e.duplicates atoms) := by
  rw [duplicates, LeftEdge.duplicates]
  refine collect_eq fun p hp => ?_
  have halt := hatoms p.1 (List.fst_mem_of_mem_zipIdx hp)
  have hplace : placeOf (fun a => sameShape e e.grammar.atoms.size a p.1) (atoms.take p.2) =
      some ((atoms.take p.2).findIdx? fun earlier => e.same earlier p.1) :=
    placeOf_eq fun a ha => sameShape_eq he (Nat.le_refl _) (hatoms a (List.mem_of_mem_take ha)) halt
  simp only [hplace, Option.bind_eq_bind, Option.bind_some]
  rfl

theorem unreachable_eq (he : Sized e) {atoms : List AtomId}
    (hatoms : ∀ a ∈ atoms, a < e.grammar.atoms.size) :
    unreachable e atoms = some (e.unreachable atoms) := by
  rw [unreachable, LeftEdge.unreachable, placeOf_eq fun a ha => alwaysSucceeds_eq he (hatoms a ha),
    Option.bind_eq_bind, Option.bind_some]
  cases atoms.findIdx? e.alwaysSucceeds <;> rfl

theorem atomFindings_eq (he : Sized e) {atom : Atom}
    (hchild : ∀ c ∈ atom.children, c < e.grammar.atoms.size) :
    atomFindings e atom = some (e.atomFindings atom) := by
  cases atom with
  | repetition a min max =>
      rw [atomFindings, getElem?_known (he.nullable ▸ hchild a List.mem_cons_self)]
      rfl
  | choice atoms =>
      have hatoms : ∀ a ∈ atoms, a < e.grammar.atoms.size := hchild
      rw [atomFindings, duplicates_eq he hatoms, unreachable_eq he hatoms]
      rfl
  | rule | literal | pattern | token | sequence | lookahead | discard | splice => rfl

theorem findAll_eq {find : AtomId → SortedSet AtomId → Option (List Finding × SortedSet AtomId)}
    {find' : AtomId → SortedSet AtomId → List Finding × SortedSet AtomId} {atoms : List AtomId}
    (h : ∀ a ∈ atoms, ∀ seen, find a seen = some (find' a seen)) (seen : SortedSet AtomId) :
    findAll find atoms seen = some (LeftEdge.findAll find' atoms seen) := by
  induction atoms generalizing seen with
  | nil => rfl
  | cons a rest ih =>
      rw [List.forall_mem_cons] at h
      rw [findAll, LeftEdge.findAll, h.1, Option.bind_eq_bind, Option.bind_some]
      dsimp only
      rw [ih h.2]
      rfl

theorem findingsFrom_eq (he : Sized e) {bound : Nat} (hbound : bound ≤ e.grammar.atoms.size)
    {id : AtomId} (hid : id < bound) (seen : SortedSet AtomId) :
    findingsFrom e bound id seen = some (e.findingsFrom bound id seen) := by
  refine he.ready.atom_induction (P := fun bound id =>
    ∀ seen, findingsFrom e bound id seen = some (e.findingsFrom bound id seen))
    (fun {bound id atom} hid hbound hatom hbelow seen => ?_) hid hbound seen
  rw [findingsFrom, LeftEdge.findingsFrom]
  by_cases hseen : seen.contains id = true
  · rw [if_pos hseen, if_pos hseen]
  · have hhere := atomFindings_eq he fun c hc =>
      Nat.lt_trans (he.ready.child_lt hatom c hc) (Nat.lt_of_lt_of_le hid hbound)
    simp only [if_neg hseen, hatom, Option.bind_eq_bind, Option.bind_some, findAll_eq hbelow, hhere]
    rfl

theorem references_eq (he : Sized e) {bound : Nat} (hbound : bound ≤ e.grammar.atoms.size)
    {id : AtomId} (hid : id < bound) : references e bound id = some (e.references bound id) := by
  refine he.ready.atom_induction
    (P := fun bound id => references e bound id = some (e.references bound id))
    (fun {bound id atom} _ _ hatom hrefs => ?_) hid hbound
  simp only [references, LeftEdge.references, hatom, Option.bind_eq_bind, Option.bind_some]
  cases atom with
  | rule => rfl
  | literal | pattern | token | sequence | choice | repetition | lookahead | discard | splice =>
      exact foldlM_union_eq hrefs .empty

theorem lt_of_mem_references (he : Sized e) {bound : Nat} {id : AtomId} {r : RuleId}
    (h : r ∈ e.references bound id) : r < e.grammar.rules.size := by
  induction bound generalizing id with
  | zero => exact absurd h (SortedSet.not_mem_empty r)
  | succ bound ih =>
      rw [LeftEdge.references] at h
      split at h
      · exact absurd h (SortedSet.not_mem_empty r)
      · rename_i rule hatom
        rw [SortedSet.mem_singleton.1 h]
        exact he.ready.rule_lt hatom
      · rcases Grammar.mem_foldl_union.1 h with h | ⟨c, -, h⟩
        · exact absurd h (SortedSet.not_mem_empty r)
        · exact ih h

theorem usedRules_eq (he : Sized e) : usedRules e = some e.usedRules := by
  rw [usedRules, mapM_array_eq fun rule hrule =>
    references_eq he (Nat.le_refl _) (he.ready.body_lt_of_mem hrule), Option.bind_eq_bind,
      Option.bind_some]
  refine closure_table_eq Array.size_map (fun refs hrefs r hr => ?_) fun r hr => ?_
  · obtain ⟨rule, -, rfl⟩ := Array.mem_map.1 hrefs
    exact lt_of_mem_references he hr
  · rw [SortedSet.mem_singleton.1 hr]
    exact he.ready.root_lt

theorem warnings_eq (he : Sized e) : warnings e = some e.warnings := by
  have hrecursive : collect (fun p : Rule × Nat =>
      return if (← e.reach[p.2]?).contains p.2 then some ⟨p.1.name, .leftRecursion⟩ else none)
      e.grammar.rules.toList.zipIdx =
      some (e.grammar.rules.toList.zipIdx.filterMap fun p =>
        if e.isLeftRecursive p.2 then some (⟨p.1.name, .leftRecursion⟩ : Warning) else none) := by
    refine collect_eq fun p hp => ?_
    have hlt : p.2 < e.grammar.rules.size := by simpa using List.snd_lt_of_mem_zipIdx hp
    rw [getElem?_reach he hlt]
    rfl
  have hinside : e.grammar.rules.toList.zipIdx.mapM (fun p => do
      let findings ← findingsFrom e e.grammar.atoms.size p.1.body .empty
      return findings.1.map (Warning.mk p.1.name)) =
      some (e.grammar.rules.toList.zipIdx.map fun p =>
        (e.findingsFrom e.grammar.atoms.size p.1.body .empty).1.map (Warning.mk p.1.name)) := by
    refine Grammar.mapM_eq_pure fun p hp => ?_
    have hrule := Array.mem_toList_iff.1 (List.fst_mem_of_mem_zipIdx hp)
    rw [findingsFrom_eq he (Nat.le_refl _) (he.ready.body_lt_of_mem hrule)]
    rfl
  rw [warnings, usedRules_eq he, Option.bind_eq_bind, Option.bind_some, hrecursive,
    Option.bind_eq_bind, Option.bind_some, hinside, LeftEdge.warnings, List.flatMap_def]
  rfl

end Warnings

end Checked

end Seedling
