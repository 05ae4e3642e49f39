import Seedling.Automaton.Dfa
import Std.Data.HashMap

/-!
Subset construction. A state of the deterministic automaton is a closed set of states; the sets are
numbered in the order in which they are met, and a row is worked out for one set after the other
until every set has one.
-/

namespace Seedling.Automaton

/-- Sets of states in the order in which they were met, each met once. -/
structure Numbering where
  sets : Array StateSet
  number : Std.HashMap StateSet Nat
  agrees : ∀ (states : StateSet) (i : Nat), number[states]? = some i ↔ sets[i]? = some states

namespace Numbering

def empty : Numbering := ⟨#[], ∅, by simp⟩

/-- The number of a set, which joins the others if it is new. -/
def intern (n : Numbering) (states : StateSet) : Numbering × Nat :=
  match h : n.number[states]? with
  | some i => (n, i)
  | none =>
      (⟨n.sets.push states, n.number.insert states n.sets.size, by
        intro t i
        have ht := n.agrees t i
        rw [Std.HashMap.getElem?_insert, Array.getElem?_push]
        grind⟩, n.sets.size)

end Numbering

structure Subsets where
  numbering : Numbering
  /-- The rows of the first sets. -/
  rows : Array (SortedMap UInt8 Nat)

namespace Subsets

/-- Where each byte leads from a set of states, before closing. -/
def moves (nfa : Nfa) (states : StateSet) : SortedMap UInt8 StateSet :=
  states.toList.foldr (fun s moves => moves.mergeWith SortedSet.union (nfa.row s)) .empty

/-- Closes the targets of moves. Neighbouring bytes often have the same targets, so the last closed
set is kept beside the set it came from. -/
def closeMoves (nfa : Nfa) : StateSet × StateSet → List (UInt8 × StateSet) →
    List (UInt8 × StateSet)
  | _, [] => []
  | (last, closed), (b, targets) :: rest =>
      let closed := if targets = last then closed else nfa.closure targets
      (b, closed) :: closeMoves nfa (targets, closed) rest

theorem closeMoves_eq_map (nfa : Nfa) (last : StateSet) (moves : List (UInt8 × StateSet)) :
    closeMoves nfa (last, nfa.closure last) moves = moves.map fun p => (p.1, nfa.closure p.2) := by
  induction moves generalizing last with
  | nil => rfl
  | cons p rest ih =>
      obtain ⟨b, targets⟩ := p
      have h : (if targets = last then nfa.closure last else nfa.closure targets)
          = nfa.closure targets := by
        split
        · rename_i h
          rw [h]
        · rfl
      simp only [closeMoves, h, ih, List.map_cons]

def numberMoves : List (UInt8 × StateSet) → Numbering → Numbering × List (UInt8 × Nat)
  | [], n => (n, [])
  | (b, states) :: rest, n =>
      let (n, target) := n.intern states
      let (n, row) := numberMoves rest n
      (n, (b, target) :: row)

/-- Adds the row of the first set that has none. -/
def advance (nfa : Nfa) (states : StateSet) (subsets : Subsets) : Subsets :=
  let closed := closeMoves nfa (.empty, nfa.closure .empty) (moves nfa states).toList
  let (numbering, row) := numberMoves closed subsets.numbering
  ⟨numbering, subsets.rows.push (.ofList row)⟩

/-- Works until every set has its row. There are no more sets than subsets of states, which bounds
the number of rounds. -/
def saturate (nfa : Nfa) : Nat → Subsets → Subsets
  | 0, subsets => subsets
  | rounds + 1, subsets =>
      match subsets.numbering.sets[subsets.rows.size]? with
      | none => subsets
      | some states => saturate nfa rounds (advance nfa states subsets)

def ofNfa (nfa : Nfa) : Subsets :=
  saturate nfa (Nat.pow 2 nfa.epsilons.size + 1)
    ⟨(Numbering.empty.intern (nfa.closure nfa.start)).1, #[]⟩

end Subsets

/-- The place of a name in the order of precedence; names that are not listed come last. -/
def rank (order : List String) (name : String) : Nat := order.idxOf name

/-- The best ranked of some states, the later one on a tie. -/
def bestRanked (rankOf : Nat → Nat) : List Nat → Option Nat
  | [] => none
  | s :: rest =>
      match bestRanked rankOf rest with
      | none => some s
      | some t => if rankOf s < rankOf t then some s else some t

/-- The name of a set: the names of its members, unless some must survive; then one of these, by
precedence, or else the one with the highest number. -/
def subsetName (nfa : Nfa) (precedence : Option (List String)) (states : StateSet) : String :=
  match states.toList.filter fun s => nfa.unmergeable.contains s with
  | [] => ", ".intercalate (states.toList.map nfa.name)
  | tagged =>
      match precedence with
      | none => nfa.name (tagged.getLastD 0)
      | some order => nfa.name ((bestRanked (fun s => rank order (nfa.name s)) tagged).getD 0)

/-- The numbers of the sets that meet `marked`. -/
def meeting (sets : Array StateSet) (marked : StateSet) : StateSet :=
  .ofList ((List.range sets.size).filter fun i =>
    (sets[i]?.getD .empty).toList.any fun s => marked.contains s)

def determinize (nfa : Nfa) (precedence : Option (List String)) : Dfa :=
  let subsets := Subsets.ofNfa nfa
  let sets := subsets.numbering.sets
  { names := sets.map (subsetName nfa precedence)
    rows := subsets.rows
    final := meeting sets nfa.final
    unmergeable := meeting sets nfa.unmergeable }

end Seedling.Automaton
