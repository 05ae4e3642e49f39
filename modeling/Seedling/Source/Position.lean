/-!
Places in a source. Lines and columns start at one, and columns count bytes. A position can be read
off an offset or carried along over the bytes that were consumed.
-/

namespace Seedling.Source

structure Position where
  offset : Nat
  line : Nat
  column : Nat
deriving DecidableEq

def newline : UInt8 := 10

/-- The number of bytes after the last newline. -/
def trailing (bs : List UInt8) : Nat := (bs.reverse.takeWhile (· ≠ newline)).length

namespace Position

def start : Position := ⟨0, 1, 1⟩

instance : Inhabited Position := ⟨start⟩

/-- The position of an offset; an offset beyond the end stands for the end. -/
def ofOffset (bs : List UInt8) (offset : Nat) : Position :=
  let before := bs.take offset
  ⟨before.length, before.count newline + 1, trailing before + 1⟩

/-- The position after `consumed`, which starts at `p`. -/
def advance (p : Position) (consumed : List UInt8) : Position :=
  if consumed.count newline = 0 then
    ⟨p.offset + consumed.length, p.line, p.column + consumed.length⟩
  else
    ⟨p.offset + consumed.length, p.line + consumed.count newline, trailing consumed + 1⟩

/-- By offset, then line, then column. -/
instance : Ord Position where
  compare p q := (compare p.offset q.offset).then
    ((compare p.line q.line).then (compare p.column q.column))

def describe (p : Position) : String := s!"line {p.line}, column {p.column}"

end Position

end Seedling.Source
