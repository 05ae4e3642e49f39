import Seedling.Automaton.Dfa
import Seedling.Json.Decode

/-!
Automata as documents. Rows are objects whose keys are bytes in decimal, sets are ascending lists. A
document of a deterministic automaton is checked like parts from anywhere else.
-/

namespace Seedling.Automaton

def rowDocument {α : Type} (f : α → Json) (row : SortedMap UInt8 α) : Json :=
  .object (row.toList.map fun p => (Nat.toDigits 10 p.1.toNat, f p.2))

def setDocument (states : StateSet) : Json := .ofNats states.toList

def readSet (j : Json) : Option StateSet := (Json.asList Json.asNat j).map SortedSet.ofList

def readRow {α : Type} (f : Json → Option α) (j : Json) : Option (SortedMap UInt8 α) :=
  (Json.asByteMap f j).map SortedMap.ofList

def Nfa.document (nfa : Nfa) : Json :=
  .record
    [("names", .ofStrings nfa.names.toList),
     ("edges", .array (nfa.edges.toList.map (rowDocument setDocument))),
     ("epsilons", .array (nfa.epsilons.toList.map setDocument)),
     ("start_states", setDocument nfa.start),
     ("final_states", setDocument nfa.final),
     ("unmergeable_states", setDocument nfa.unmergeable)]

def Nfa.ofDocument (j : Json) : Option Nfa := do
  match ← Json.allFields
      ["names", "edges", "epsilons", "start_states", "final_states", "unmergeable_states"] j with
  | [names, edges, epsilons, start, final, unmergeable] =>
      return {
        names := (← Json.asList Json.asString names).toArray
        edges := (← Json.asList (readRow readSet) edges).toArray
        epsilons := (← Json.asList readSet epsilons).toArray
        start := ← readSet start
        final := ← readSet final
        unmergeable := ← readSet unmergeable }
  | _ => none

def Nfa.toJson (nfa : Nfa) : String := nfa.document.text

def Nfa.ofJson (s : String) : Option Nfa := (Json.read s).bind Nfa.ofDocument

def Dfa.document (d : Dfa) : Json :=
  .record
    [("names", .ofStrings d.names.toList),
     ("transitions", .array (d.rows.toList.map (rowDocument .ofNat))),
     ("final_states", setDocument d.final),
     ("unmergeable_states", setDocument d.unmergeable)]

def Dfa.toJson (d : Dfa) : String := d.document.text

def Dfa.readParts (j : Json) :
    Option (Array String × Array (SortedMap UInt8 Nat) × StateSet × StateSet) := do
  match ← Json.allFields ["names", "transitions", "final_states", "unmergeable_states"] j with
  | [names, rows, final, unmergeable] =>
      return ((← Json.asList Json.asString names).toArray,
        (← Json.asList (readRow Json.asNat) rows).toArray, ← readSet final, ← readSet unmergeable)
  | _ => none

/-- Reads an automaton. The parts are checked before the rest of the text is. -/
def Dfa.ofJson (s : String) : Except AutomatonError Dfa :=
  match Json.readFront s with
  | none => .error .unreadable
  | some (j, rest) =>
      match Dfa.readParts j with
      | none => .error .unreadable
      | some (names, rows, final, unmergeable) =>
          match Dfa.ofParts names rows final unmergeable with
          | .error e => .error (.document e.message)
          | .ok d => if Json.atEnd rest then .ok d else .error .unreadable

end Seedling.Automaton
