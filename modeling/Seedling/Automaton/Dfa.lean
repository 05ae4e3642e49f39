import Seedling.Automaton.Nfa

/-!
Deterministic automata over bytes. State zero is the start. The transition function is partial: a
missing transition rejects whatever follows. Parts from outside are checked before they become an
automaton.
-/

namespace Seedling.Automaton

inductive AutomatonError where
  | lengthMismatch (names rows : Nat)
  | stateOutOfRange (state count : Nat)
  | empty
  /-- A text that is not a document of an automaton. -/
  | unreadable
  /-- A document that was read and then refused. -/
  | document (reason : String)
deriving DecidableEq

def AutomatonError.message : AutomatonError → String
  | .lengthMismatch names rows => s!"automaton has {names} state names but {rows} transition rows"
  | .stateOutOfRange state count => s!"state {state} out of range (automaton has {count} states)"
  | .empty => "automaton has no states"
  | .unreadable => "invalid automaton JSON: not a description of an automaton"
  | .document reason => "invalid automaton JSON: " ++ reason

structure Dfa where
  names : Array String
  rows : Array (SortedMap UInt8 Nat)
  final : StateSet
  unmergeable : StateSet
deriving DecidableEq

namespace Dfa

def size (d : Dfa) : Nat := d.names.size

/-- Every state number that the parts of an automaton mention. -/
def mentioned (rows : Array (SortedMap UInt8 Nat)) (final unmergeable : StateSet) : List Nat :=
  rows.toList.flatMap SortedMap.values ++ final.toList ++ unmergeable.toList

/-- Checks the parts of an automaton: as many rows as names, at least one state, and no state number
out of range. -/
def ofParts (names : Array String) (rows : Array (SortedMap UInt8 Nat))
    (final unmergeable : StateSet) : Except AutomatonError Dfa :=
  if names.size ≠ rows.size then .error (.lengthMismatch names.size rows.size)
  else if names.size = 0 then .error .empty
  else match (mentioned rows final unmergeable).find? fun s => names.size ≤ s with
    | some s => .error (.stateOutOfRange s names.size)
    | none => .ok ⟨names, rows, final, unmergeable⟩

def row (d : Dfa) (s : Nat) : SortedMap UInt8 Nat := d.rows[s]?.getD .empty

def name (d : Dfa) (s : Nat) : String := d.names[s]?.getD ""

def next? (d : Dfa) (s : Nat) (b : UInt8) : Option Nat := (d.row s).get? b

def isFinal (d : Dfa) (s : Nat) : Bool := d.final.contains s

/-- The state after a word, if no transition is missing on the way. -/
def run (d : Dfa) (s : Nat) (w : List UInt8) : Option Nat := w.foldlM d.next? s

def recognize (d : Dfa) (w : List UInt8) : Bool := ((d.run 0 w).map d.isFinal).getD false

def allBytes : List UInt8 := (List.range 256).map Nat.toUInt8

def isComplete (d : Dfa) : Bool := d.rows.all fun row => row.size = 256

def fillRow (s : Nat) (row : SortedMap UInt8 Nat) : SortedMap UInt8 Nat :=
  allBytes.foldl (fun row b => row.upsert b fun target => target.getD s) row

/-- The same language with a transition for every byte; what was missing leads to a new state. -/
def complete (d : Dfa) : Dfa :=
  if d.isComplete then d
  else { d with
    names := d.names.push "error"
    rows := (d.rows.push .empty).map (fillRow d.size) }

/-- The automaton that accepts exactly the words that `d` does not. -/
def complement (d : Dfa) : Dfa :=
  let d := d.complete
  { d with
    final := .ofList ((List.range d.size).filter fun s => !d.isFinal s)
    unmergeable := .empty }

def toNfa (d : Dfa) : Nfa where
  names := d.names
  edges := d.rows.map fun row => row.mapValues SortedSet.singleton
  epsilons := d.names.map fun _ => .empty
  start := .singleton 0
  final := d.final
  unmergeable := d.unmergeable

end Dfa

end Seedling.Automaton
