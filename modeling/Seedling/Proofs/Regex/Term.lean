import Seedling.Proofs.Regex.Combinators

/-!
Terms and how they are written. A term is built from bytes and sets of bytes by concatenation,
alternation and quantifiers, and has a language of its own, apart from the expressions that
patterns are read into. It is written with hexadecimal escapes only; a style settles the rest,
such as how a set is taken apart and whether all operands have parentheses or only those that
precedence asks for.
-/

namespace Seedling.Regex

/-! ### Terms -/

/-- How often a part may occur. The bounds are those that a pattern can write. -/
inductive Quantity where
  | star
  | plus
  | optional
  | exactly (n : Nat) (small : n < UInt64.size)
  | atLeast (min : Nat) (small : min < UInt64.size)
  | between (min max : Nat) (ordered : min ≤ max) (small : max < UInt64.size)

def Quantity.Allows : Quantity → Nat → Prop
  | .star, _ => True
  | .plus, k => 1 ≤ k
  | .optional, k => k ≤ 1
  | .exactly n _, k => k = n
  | .atLeast min _, k => min ≤ k
  | .between min max _ _, k => min ≤ k ∧ k ≤ max

inductive Term where
  | byte (b : UInt8)
  | set (s : UInt8 → Bool)
  | concat (a b : Term)
  | alternation (a b : Term)
  | quantified (a : Term) (q : Quantity)

namespace Term

def language : Term → Language UInt8
  | .byte b => {[b]}
  | .set s => {w | ∃ b, s b = true ∧ w = [b]}
  | .concat a b => a.language * b.language
  | .alternation a b => a.language + b.language
  | .quantified a q => {w | ∃ k, q.Allows k ∧ w ∈ a.language ^ k}

end Term

/-! ### Styles -/

/-- An item of a class: a byte, or all bytes between two. -/
inductive Span where
  | byte (b : UInt8)
  | range (lo hi : UInt8) (ordered : lo ≤ hi)

def Span.contains : Span → UInt8 → Bool
  | .byte b, c => c == b
  | .range lo hi _, c => lo ≤ c && c ≤ hi

/-- A class, which has at least one item. -/
structure ByteClass where
  negated : Bool
  first : Span
  rest : List Span

namespace ByteClass

def spans (c : ByteClass) : List Span := c.first :: c.rest

def contains (c : ByteClass) (b : UInt8) : Bool := c.negated != c.spans.any (·.contains b)

/-- Every set is a class: of its bytes, or the complement of all bytes if it has none. -/
def ofSet (s : UInt8 → Bool) : ByteClass :=
  match ((List.range 256).map Nat.toUInt8).filter s with
  | [] => ⟨true, .range 0 255 (by decide), []⟩
  | b :: bs => ⟨false, .byte b, bs.map .byte⟩

theorem contains_ofSet (s : UInt8 → Bool) (b : UInt8) : (ofSet s).contains b = s b := by
  have hmem : b ∈ ((List.range 256).map Nat.toUInt8).filter s ↔ s b = true := by
    simp [mem_bytes b]
  rw [Bool.eq_iff_iff, ← hmem, ofSet]
  split
  · have hmax : b ≤ 255 := UInt8.le_iff_toNat_le.2 (Nat.le_of_lt_succ b.toNat_lt)
    simp [*, contains, spans, Span.contains]
  · rename_i c cs hbytes
    simp [hbytes, contains, spans, Span.contains, List.mem_cons]

end ByteClass

/-- The choices that writing a term leaves open. -/
structure Style where
  /-- Hexadecimal digits in upper case. -/
  upper : Bool
  /-- Parentheses only where precedence asks for them. -/
  sparing : Bool
  /-- How a set is taken apart. -/
  classOf : (UInt8 → Bool) → ByteClass
  contains_classOf : ∀ s b, (classOf s).contains b = s b

instance : Inhabited Style := ⟨⟨false, false, .ofSet, ByteClass.contains_ofSet⟩⟩

namespace Style

variable (style : Style)

def digit (n : Nat) : Char := if style.upper then n.digitChar.toUpper else n.digitChar

def byte (b : UInt8) : List Char :=
  ['\\', 'x', style.digit (b.toNat / 16), style.digit (b.toNat % 16)]

def span : Span → List Char
  | .byte b => style.byte b
  | .range lo hi _ => style.byte lo ++ '-' :: style.byte hi

def byteClass (c : ByteClass) : List Char :=
  '[' :: (if c.negated then ['^'] else []) ++ c.spans.flatMap style.span ++ [']']

/-- The rank from which on an operand stands without parentheses, where precedence asks for
`least`. -/
def bareFrom (least : Nat) : Nat := if style.sparing then least else 3

def operand (least rank : Nat) (w : List Char) : List Char :=
  if style.bareFrom least ≤ rank then w else '(' :: w ++ [')']

end Style

def Quantity.print : Quantity → List Char
  | .star => ['*']
  | .plus => ['+']
  | .optional => ['?']
  | .exactly n _ => '\x7b' :: Nat.toDigits 10 n ++ ['\x7d']
  | .atLeast min _ => '\x7b' :: Nat.toDigits 10 min ++ [',', '\x7d']
  | .between min max _ _ => '\x7b' :: Nat.toDigits 10 min ++ ',' :: Nat.toDigits 10 max ++ ['\x7d']

namespace Term

/-- How tightly a term holds together: alternations least, then concatenations, then quantified
terms. -/
def rank : Term → Nat
  | .alternation _ _ => 0
  | .concat _ _ => 1
  | .quantified _ _ => 2
  | .byte _ | .set _ => 3

def chars (style : Style) : Term → List Char
  | .byte b => style.byte b
  | .set s => style.byteClass (style.classOf s)
  | .concat a b => style.operand 1 a.rank (a.chars style) ++ style.operand 1 b.rank (b.chars style)
  | .alternation a b =>
      style.operand 0 a.rank (a.chars style) ++ '|' :: style.operand 0 b.rank (b.chars style)
  | .quantified a q => style.operand 2 a.rank (a.chars style) ++ q.print

def print (style : Style) (t : Term) : String := String.ofList (t.chars style)

end Term

end Seedling.Regex
