import Seedling.Source.Position
import Seedling.Text.Utf8

/-!
The lines of a source. The index keeps the offset at which each line starts, which is enough to
find the line of an offset and the extent of a line; an excerpt shows a line under its number with
a caret below the offending byte.
-/

namespace Seedling.Source

structure LineIndex where
  /-- Where each line starts, in order; the first line starts at zero. -/
  starts : List Nat
  length : Nat

/-- The offsets just after each newline, for bytes that start at `offset`. -/
def startsAfter (offset : Nat) : List UInt8 → List Nat
  | [] => []
  | b :: bs => if b = newline then (offset + 1) :: startsAfter (offset + 1) bs
               else startsAfter (offset + 1) bs

namespace LineIndex

def ofBytes (bs : List UInt8) : LineIndex := ⟨0 :: startsAfter 0 bs, bs.length⟩

def lineCount (index : LineIndex) : Nat := index.starts.length

/-- The position of an offset: its line is the last one that starts at or before it. -/
def position (index : LineIndex) (offset : Nat) : Position :=
  let offset := min offset index.length
  let before := index.starts.takeWhile (· ≤ offset)
  ⟨offset, before.length, offset - before.getLastD 0 + 1⟩

/-- First offset of a line and the offset of its end, the newline not included. -/
def lineRange (index : LineIndex) (line : Nat) : Option (Nat × Nat) :=
  if line = 0 then none
  else index.starts[line - 1]?.map fun start =>
    (start, (index.starts[line]?.map (· - 1)).getD index.length)

end LineIndex

def slice (bs : List UInt8) (start stop : Nat) : List UInt8 := (bs.take stop).drop start

def lineAt (bs : List UInt8) (offset : Nat) : List UInt8 :=
  let before := bs.take offset
  let after := bs.drop offset
  before.drop (before.length - trailing before) ++ after.takeWhile (· ≠ newline)

def carriageReturn : UInt8 := 13

/-- A line as an excerpt shows it, without the carriage returns at its end. -/
def shownLine (bs : List UInt8) (index : LineIndex) (line : Nat) : String :=
  match index.lineRange line with
  | none => ""
  | some (start, stop) =>
      Text.decode ((slice bs start stop).reverse.dropWhile (· = carriageReturn)).reverse

def padLeft (width : Nat) (s : String) : String :=
  String.ofList (List.replicate (width - s.length) ' ') ++ s

/-- The line of an offset, up to `context` lines before it, and a caret under the byte. -/
def excerpt (bs : List UInt8) (offset context : Nat) : String :=
  let index := LineIndex.ofBytes bs
  let place := index.position offset
  let first := max (place.line - context) 1
  let numbered := (List.range' first (place.line + 1 - first)).map fun line =>
    padLeft 4 (toString line) ++ " | " ++ shownLine bs index line ++ "\n"
  String.join numbered ++ "     | " ++ String.ofList (List.replicate (place.column - 1) ' ') ++ "^"

end Seedling.Source
