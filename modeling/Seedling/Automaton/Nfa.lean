import Seedling.SortedMap
import Seedling.Reachability

/-!
Nondeterministic automata over bytes. States are numbered from zero; a state has a name, edges
under bytes to sets of states, and edges that read nothing. A run keeps the set of all states that
the automaton may be in.
-/

namespace Seedling.Automaton

abbrev StateSet := SortedSet Nat

structure Nfa where
  names : Array String
  edges : Array (SortedMap UInt8 StateSet)
  epsilons : Array StateSet
  start : StateSet
  final : StateSet
  /-- States whose name must survive: a subset that holds one is named after it. -/
  unmergeable : StateSet
deriving DecidableEq

namespace Nfa

def empty : Nfa := ⟨#[], #[], #[], .empty, .empty, .empty⟩

instance : Inhabited Nfa := ⟨empty⟩

def size (nfa : Nfa) : Nat := nfa.names.size

def row (nfa : Nfa) (s : Nat) : SortedMap UInt8 StateSet := nfa.edges[s]?.getD .empty

def epsilon (nfa : Nfa) (s : Nat) : StateSet := nfa.epsilons[s]?.getD .empty

def name (nfa : Nfa) (s : Nat) : String := nfa.names[s]?.getD ""

/-- Adds a state; its number is the old size. -/
def addNamed (nfa : Nfa) (name : String) : Nfa :=
  { nfa with
    names := nfa.names.push name
    edges := nfa.edges.push .empty
    epsilons := nfa.epsilons.push .empty }

def addState (nfa : Nfa) : Nfa := nfa.addNamed (toString nfa.size)

def addEdge (nfa : Nfa) (source : Nat) (b : UInt8) (target : Nat) : Nfa :=
  { nfa with
    edges := nfa.edges.modify source fun row =>
      row.upsert b fun targets => (targets.getD .empty).insert target }

def addEpsilon (nfa : Nfa) (source target : Nat) : Nfa :=
  { nfa with epsilons := nfa.epsilons.modify source fun targets => targets.insert target }

def addEpsilons (nfa : Nfa) (sources targets : List Nat) : Nfa :=
  sources.foldl (fun nfa s => targets.foldl (fun nfa t => nfa.addEpsilon s t) nfa) nfa

def shift (k : Nat) (states : StateSet) : StateSet := .ofList (states.toList.map (· + k))

/-- A byte without targets is dropped. -/
def shiftRow (k : Nat) (row : SortedMap UInt8 StateSet) : SortedMap UInt8 StateSet :=
  row.filterMapValues fun targets => if targets.isEmpty then none else some (shift k targets)

/-- A copy of the states and edges of `other`, numbered from the size of `nfa` on. Its start, final
and unmergeable states are not taken over. -/
def embed (nfa other : Nfa) : Nfa :=
  let k := nfa.size
  let grown := other.names.foldl addNamed nfa
  let isCopy (i : Nat) : Bool := k ≤ i && i < k + other.size
  { grown with
    edges := grown.edges.mapIdx fun i row =>
      if isCopy i then row.mergeWith SortedSet.union (shiftRow k (other.row (i - k))) else row
    epsilons := grown.epsilons.mapIdx fun i targets =>
      if isCopy i then targets.union (shift k (other.epsilon (i - k))) else targets }

/-- The states that are reached from some states without reading. -/
def closure (nfa : Nfa) (states : StateSet) : StateSet :=
  Reachability.closure nfa.epsilon nfa.epsilons.size states

/-- The states that are reached from some states by reading one byte. -/
def step (nfa : Nfa) (states : StateSet) (b : UInt8) : StateSet :=
  states.toList.foldr (fun s next => next.union (((nfa.row s).get? b).getD .empty)) .empty

/-- The closed set of states after a word. -/
def run (nfa : Nfa) (states : StateSet) (w : List UInt8) : StateSet :=
  w.foldl (fun states b => nfa.closure (nfa.step states b)) (nfa.closure states)

def recognize (nfa : Nfa) (w : List UInt8) : Bool :=
  (nfa.run nfa.start w).toList.any fun s => nfa.final.contains s

end Nfa

end Seedling.Automaton
