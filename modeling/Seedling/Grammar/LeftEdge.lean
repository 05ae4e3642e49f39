import Seedling.Grammar.Basic
import Seedling.Reachability

/-!
The left edge of a grammar: which atoms can match without consuming anything, and which rules a rule
can call before it has consumed anything. A cycle of such calls is left recursion; it is hopeless if
every rule on it has to enter the cycle again before it can succeed.
-/

namespace Seedling

namespace Grammar

def isNullableIn (known : Array Bool) (id : AtomId) : Bool := known[id]?.getD false

/-- Whether an atom is nullable, given what is known of the others. -/
def nullableStep (g : Grammar) (known : Array Bool) (id : AtomId) : Bool :=
  match g.atoms[id]? with
  | none => false
  | some (.rule rule) => (g.rules[rule]?.map fun r => isNullableIn known r.body).getD false
  | some (.literal text) => text.isEmpty
  | some (.pattern _) => ((g.matcher? id).map fun m => m.dfa.isFinal 0).getD false
  | some (.token _) => false
  | some (.sequence atoms) => atoms.all (isNullableIn known)
  | some (.choice atoms) => atoms.any (isNullableIn known)
  | some (.repetition atom min _) => min = 0 || isNullableIn known atom
  | some (.lookahead ..) => true
  | some (.discard atom) => isNullableIn known atom
  | some (.splice atom) => isNullableIn known atom

/-- One pass over all atoms, each seeing what the pass has found so far. -/
def nullablePass (g : Grammar) (known : Array Bool) : Array Bool :=
  (List.range g.atoms.size).foldl
    (fun known id =>
      if !isNullableIn known id && g.nullableStep known id then known.setIfInBounds id true
      else known)
    known

/-- Passes until nothing changes. Each pass but the last finds an atom. -/
def stabilize (g : Grammar) : Nat → Array Bool → Array Bool
  | 0, known => known
  | rounds + 1, known =>
      let next := g.nullablePass known
      if next = known then known else stabilize g rounds next

/-- For each atom whether it can match without consuming anything. -/
def nullable (g : Grammar) : Array Bool :=
  g.stabilize (g.atoms.size + 1) (Array.replicate g.atoms.size false)

/-- The calls of a sequence: those of its first items, up to one that has to consume. -/
def sequenceCalls (known : Array Bool) (calls : AtomId → SortedSet RuleId) :
    List AtomId → SortedSet RuleId
  | [] => .empty
  | a :: rest =>
      if isNullableIn known a then (calls a).union (sequenceCalls known calls rest) else calls a

/-- The rules that an atom numbered below `bound` can call before it has consumed anything. -/
def leftCalls (g : Grammar) (known : Array Bool) : Nat → AtomId → SortedSet RuleId
  | 0, _ => .empty
  | bound + 1, id =>
      match g.atoms[id]? with
      | some (.rule rule) => .singleton rule
      | some (.sequence atoms) => sequenceCalls known (leftCalls g known bound) atoms
      | some (.choice atoms) =>
          atoms.foldl (fun calls a => calls.union (leftCalls g known bound a)) .empty
      | some (.repetition atom _ _) => leftCalls g known bound atom
      | some (.lookahead atom _) => leftCalls g known bound atom
      | some (.discard atom) => leftCalls g known bound atom
      | some (.splice atom) => leftCalls g known bound atom
      | _ => .empty

def directCalls (g : Grammar) (known : Array Bool) : Array (SortedSet RuleId) :=
  g.rules.map fun r => g.leftCalls known g.atoms.size r.body

/-- For each rule the rules it can call before it has consumed anything, directly or through
others. -/
def leftReach (g : Grammar) (known : Array Bool) : Array (SortedSet RuleId) :=
  let direct := g.directCalls known
  direct.map (Reachability.closure (fun r => direct[r]?.getD .empty) g.rules.size)

end Grammar

/-- What the analysis of a grammar finds out. -/
structure LeftEdge where
  grammar : Grammar
  nullable : Array Bool
  reach : Array (SortedSet RuleId)

def Grammar.leftEdge (g : Grammar) : LeftEdge :=
  let known := g.nullable
  ⟨g, known, g.leftReach known⟩

namespace LeftEdge

def isNullable (e : LeftEdge) (id : AtomId) : Bool := Grammar.isNullableIn e.nullable id

def reachOf (e : LeftEdge) (rule : RuleId) : SortedSet RuleId := e.reach[rule]?.getD .empty

def isLeftRecursive (e : LeftEdge) (rule : RuleId) : Bool := (e.reachOf rule).contains rule

/-- The rules that a rule and they can reach from each other. -/
def cycleOf (e : LeftEdge) (rule : RuleId) : SortedSet RuleId :=
  (e.reachOf rule).filter fun other => (e.reachOf other).contains rule

/-- A yes or no, with the rules that were looked into on the way. -/
abbrev Verdict := Bool × SortedSet RuleId

/-- Whether one of the items has to enter, before an item that has to consume. -/
def sequenceMustEnter (isNullable : AtomId → Bool)
    (must : AtomId → SortedSet RuleId → Verdict) :
    List AtomId → SortedSet RuleId → Verdict
  | [], visited => (false, visited)
  | a :: rest, visited =>
      match must a visited with
      | (true, visited) => (true, visited)
      | (false, visited) =>
          if isNullable a then sequenceMustEnter isNullable must rest visited else (false, visited)

/-- Whether all hold; the first that does not ends the search. -/
def allHold (holds : AtomId → SortedSet RuleId → Verdict) :
    List AtomId → SortedSet RuleId → Verdict
  | [], visited => (true, visited)
  | a :: rest, visited =>
      match holds a visited with
      | (true, visited) => allHold holds rest visited
      | (false, visited) => (false, visited)

/-- Whether some hold; the first that does ends the search. -/
def anyHolds (holds : AtomId → SortedSet RuleId → Verdict) :
    List AtomId → SortedSet RuleId → Verdict
  | [], visited => (false, visited)
  | a :: rest, visited =>
      match holds a visited with
      | (true, visited) => (true, visited)
      | (false, visited) => anyHolds holds rest visited

/-- Whether every success of an atom numbered below `bound` begins with a call into `cycle`. -/
def atomMustEnter (e : LeftEdge) (cycle : SortedSet RuleId)
    (ruleMust : RuleId → SortedSet RuleId → Verdict) :
    Nat → AtomId → SortedSet RuleId → Verdict
  | 0, _, visited => (false, visited)
  | bound + 1, id, visited =>
      let must := atomMustEnter e cycle ruleMust bound
      match e.grammar.atoms[id]? with
      | some (.rule rule) => if cycle.contains rule then (true, visited) else ruleMust rule visited
      | some (.sequence atoms) => sequenceMustEnter e.isNullable must atoms visited
      | some (.choice atoms) => allHold must atoms visited
      | some (.repetition atom min _) => if 0 < min then must atom visited else (false, visited)
      | some (.lookahead atom positive) => if positive then must atom visited else (false, visited)
      | some (.discard atom) => must atom visited
      | some (.splice atom) => must atom visited
      | _ => (false, visited)

/-- The same for a rule outside the cycle. A rule is looked into once; `depth` bounds how many rules
can be inside each other. -/
def ruleMustEnter (e : LeftEdge) (cycle : SortedSet RuleId) :
    Nat → RuleId → SortedSet RuleId → Verdict
  | 0, _, visited => (false, visited)
  | depth + 1, rule, visited =>
      if visited.contains rule then (false, visited)
      else match e.grammar.rules[rule]? with
        | none => (false, visited)
        | some r =>
            atomMustEnter e cycle (ruleMustEnter e cycle depth) e.grammar.atoms.size r.body
              (visited.insert rule)

/-- Whether every rule of a cycle has to enter the cycle before it can succeed. -/
def isStuck (e : LeftEdge) (cycle : SortedSet RuleId) : Bool :=
  cycle.toList.all fun rule =>
    match e.grammar.rules[rule]? with
    | none => false
    | some r =>
        (atomMustEnter e cycle (ruleMustEnter e cycle e.grammar.rules.size) e.grammar.atoms.size
          r.body .empty).1

/-- A cycle of left recursion that can never begin to match, by the names of its rules. -/
def unresolvable (e : LeftEdge) : Option (List String) :=
  (List.range e.grammar.rules.size).findSome? fun rule =>
    if e.isLeftRecursive rule && e.isStuck (e.cycleOf rule) then
      some ((e.cycleOf rule).toList.map e.grammar.ruleName)
    else none

end LeftEdge

end Seedling
