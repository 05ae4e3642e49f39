/-!
Text and its bytes. Any bytes can be read as text: a piece that is not a whole character becomes
one replacement character, and such a piece is as long as it still begins like a character.
-/

namespace Seedling.Text

/-- The UTF-8 bytes of a text. -/
def bytes (s : String) : List UInt8 := s.toByteArray.data.toList

def replacement : Char := Char.ofNat 0xfffd

/-- What may follow a first byte: the bits it carries and the range of each further byte. -/
def tailRanges (b : UInt8) : Option (Nat × List (UInt8 × UInt8)) :=
  let any : UInt8 × UInt8 := (0x80, 0xbf)
  if b < 0xc2 then none
  else if b < 0xe0 then some (b.toNat - 0xc0, [any])
  else if b = 0xe0 then some (0, [(0xa0, 0xbf), any])
  else if b = 0xed then some (0xd, [(0x80, 0x9f), any])
  else if b < 0xf0 then some (b.toNat - 0xe0, [any, any])
  else if b = 0xf0 then some (0, [(0x90, 0xbf), any, any])
  else if b < 0xf4 then some (b.toNat - 0xf0, [any, any, any])
  else if b = 0xf4 then some (4, [(0x80, 0x8f), any, any])
  else none

/-- How many of the bytes fall into the ranges, one after the other. -/
def fitting : List (UInt8 × UInt8) → List UInt8 → Nat
  | (lo, hi) :: ranges, b :: bs => if lo ≤ b ∧ b ≤ hi then fitting ranges bs + 1 else 0
  | _, _ => 0

/-- The character that starts with byte `b`, and how many of the bytes after it belong to it. -/
def decodeStep (b : UInt8) (rest : List UInt8) : Char × Nat :=
  if b < 0x80 then (Char.ofNat b.toNat, 0)
  else match tailRanges b with
    | none => (replacement, 0)
    | some (bits, ranges) =>
        let n := fitting ranges rest
        if n = ranges.length then
          (Char.ofNat ((rest.take n).foldl (fun acc c => acc * 64 + (c.toNat - 0x80)) bits), n)
        else (replacement, n)

def decodeChars : List UInt8 → List Char
  | [] => []
  | b :: rest => (decodeStep b rest).1 :: decodeChars (rest.drop (decodeStep b rest).2)
termination_by bs => bs.length
decreasing_by simp only [List.length_drop, List.length_cons]; omega

/-- Bytes read as text, with replacement characters where they are not valid. -/
def decode (bs : List UInt8) : String := String.ofList (decodeChars bs)

end Seedling.Text
