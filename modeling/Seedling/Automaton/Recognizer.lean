import Seedling.Automaton.Dfa

/-!
Longest matches. The rows of an automaton are laid out in one table, 256 places for each state, and
a scan follows it while remembering the last final state it came through.
-/

namespace Seedling.Automaton

structure Match where
  start : Nat
  stop : Nat
  state : Nat
deriving DecidableEq

def Match.length (m : Match) : Nat := m.stop - m.start

def Match.isEmpty (m : Match) : Bool := m.stop = m.start

structure Recognizer where
  dfa : Dfa
  table : Array (Option Nat)
  accepting : Array Bool

namespace Recognizer

def rowTable (row : SortedMap UInt8 Nat) : Array (Option Nat) :=
  row.toList.foldl (fun table p => table.setIfInBounds p.1.toNat (some p.2))
    (Array.replicate 256 none)

def ofDfa (d : Dfa) : Recognizer where
  dfa := d
  table := (d.rows.map rowTable).flatten
  accepting := ((List.range d.size).map d.isFinal).toArray

def next? (r : Recognizer) (s : Nat) (b : UInt8) : Option Nat :=
  r.table[s * 256 + b.toNat]?.getD none

def accepts (r : Recognizer) (s : Nat) : Bool := r.accepting[s]?.getD false

/-- Follows the table over the bytes from offset `i` on; `last` is the last final state so far and
the offset at which it was reached. Also tells where the scan stopped. -/
def scan (r : Recognizer) : Nat → Nat → Option (Nat × Nat) → List UInt8 →
    Option (Nat × Nat) × Nat
  | _, i, last, [] => (last, i)
  | s, i, last, b :: rest =>
      match r.next? s b with
      | none => (last, i)
      | some t => scan r t (i + 1) (if r.accepts t then some (i + 1, t) else last) rest

/-- The longest match that starts at `pos`, or else where scanning stopped: the first byte without
a transition, or the end. -/
def longestMatch (r : Recognizer) (input : List UInt8) (pos : Nat) : Except Nat Match :=
  match r.scan 0 pos (if r.accepts 0 then some (pos, 0) else none) (input.drop pos) with
  | (some (stop, state), _) => .ok ⟨pos, stop, state⟩
  | (none, i) => .error i

def isMatch (r : Recognizer) (input : List UInt8) : Bool :=
  match r.longestMatch input 0 with
  | .ok m => m.stop = input.length
  | .error _ => false

def stateName (r : Recognizer) (s : Nat) : String := r.dfa.name s

end Recognizer

end Seedling.Automaton
