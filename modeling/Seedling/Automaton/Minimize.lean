import Seedling.Automaton.Dfa
import Std.Data.HashMap

/-!
Minimization by refining a partition. States start in one block of final and one of other states,
and each unmergeable state in a block of its own. A block is split as long as two of its states
lead, under some byte, to different blocks; a missing transition differs from any other.
-/

namespace Seedling.Automaton

namespace Dfa

/-- Numbers the elements of a list by first occurrence; `seen` has the numbers given before. -/
def numberFrom {α : Type} [BEq α] [Hashable α] (seen : Std.HashMap α Nat) : List α → List Nat
  | [] => []
  | a :: rest =>
      match seen[a]? with
      | some n => n :: numberFrom seen rest
      | none => seen.size :: numberFrom (seen.insert a seen.size) rest

/-- Which block a state starts in. -/
inductive Kind where
  | final
  | other
  | alone (state : Nat)
deriving DecidableEq, Hashable

def kind (d : Dfa) (s : Nat) : Kind :=
  if d.unmergeable.contains s then .alone s else if d.isFinal s then .final else .other

/-- A partition gives each state, in order, the number of its block. -/
abbrev Partition := Array Nat

def blockOf (blocks : Partition) (s : Nat) : Nat := blocks[s]?.getD 0

def blockCount (blocks : Partition) : Nat := blocks.foldl (fun n b => max n (b + 1)) 0

def initialPartition (d : Dfa) : Partition :=
  (numberFrom ∅ ((List.range d.size).map d.kind)).toArray

/-- What a state shows of itself to the partition. -/
def signature (d : Dfa) (blocks : Partition) (s : Nat) : Nat × List (UInt8 × Nat) :=
  (blockOf blocks s, ((d.row s).mapValues (blockOf blocks)).toList)

def refine (d : Dfa) (blocks : Partition) : Partition :=
  (numberFrom ∅ ((List.range d.size).map (d.signature blocks))).toArray

/-- Refines until the number of blocks stays the same or every state is alone. -/
def refineAll (d : Dfa) : Nat → Partition → Partition
  | 0, blocks => blocks
  | rounds + 1, blocks =>
      if blockCount blocks < d.size then
        let refined := d.refine blocks
        if blockCount refined = blockCount blocks then refined else refineAll d rounds refined
      else blocks

def coarsest (d : Dfa) : Partition := d.refineAll d.size d.initialPartition

/-- Exchanges the number of the start state's block with zero. -/
def renumber (start block : Nat) : Nat :=
  if block = start then 0 else if block = 0 then start else block

/-- One state for each block, with the name and the row of its first member. -/
def quotient (d : Dfa) (blocks : Partition) : Dfa :=
  let number (s : Nat) : Nat := renumber (blockOf blocks 0) (blockOf blocks s)
  let members := (List.range (blockCount blocks)).filterMap fun b =>
    (List.range d.size).find? fun s => number s = b
  { names := (members.map d.name).toArray
    rows := (members.map fun s => (d.row s).mapValues number).toArray
    final := .ofList (d.final.toList.map number)
    unmergeable := .ofList (d.unmergeable.toList.map number) }

/-- The automaton with equivalent states merged, or `none` when no two states are equivalent. -/
def minimize? (d : Dfa) : Option Dfa :=
  if d.size ≤ 1 then none
  else
    let blocks := d.coarsest
    if blockCount blocks = d.size then none else some (d.quotient blocks)

def minimized (d : Dfa) : Dfa := d.minimize?.getD d

end Dfa

end Seedling.Automaton
