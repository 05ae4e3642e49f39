import Seedling.ByteRuns

/-!
Regular expressions over bytes, with complement and with tags. A tag does not change the
language; it names the state in which a match of its expression ends.
-/

namespace Seedling

inductive Regex where
  | literal (bytes : List UInt8)
  /-- One byte between two bounds; nothing at all when they are out of order. -/
  | range (lo hi : UInt8)
  | concat (a b : Regex)
  | star (a : Regex)
  | or (a b : Regex)
  | tag (a : Regex) (name : String)
  | not (a : Regex)
deriving DecidableEq

namespace Regex

def empty : Regex := .literal []

def nothing : Regex := .range 1 0

def anyByte : Regex := .range 0 255

/-- Any of the expressions; nothing when there is none. -/
def alternatives : List Regex → Regex
  | [] => nothing
  | [a] => a
  | a :: rest => .or a (alternatives rest)

/-- Neighbouring literals become one. -/
def mergeLiterals : List Regex → List Regex
  | [] => []
  | .literal bs :: rest =>
      match mergeLiterals rest with
      | .literal cs :: rest => .literal (bs ++ cs) :: rest
      | rest => .literal bs :: rest
  | a :: rest => a :: mergeLiterals rest

/-- The expressions one after the other; the empty word when there is none. -/
def sequence (items : List Regex) : Regex :=
  match mergeLiterals items with
  | [] => empty
  | a :: rest => rest.foldl .concat a

def plus (a : Regex) : Regex := .concat a (.star a)

def optional (a : Regex) : Regex := .or a empty

/-- Between `min` and `max` times, without an upper bound when there is no `max`. -/
def «repeat» (a : Regex) (min : Nat) (max : Option Nat) : Regex :=
  match max with
  | none => sequence (List.replicate min a ++ [.star a])
  | some max =>
      if max < min then nothing
      else sequence (List.replicate min a ++ List.replicate (max - min) a.optional)

/-- The bytes of a set, as ranges. -/
def ofByteSet (set : UInt8 → Bool) : Regex :=
  alternatives ((byteRuns (((List.range 256).map Nat.toUInt8).filter set)).map fun (lo, hi) =>
    .range lo hi)

end Regex

end Seedling
