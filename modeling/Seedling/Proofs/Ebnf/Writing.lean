import Seedling.Ebnf.Reader

/-!
How grammar text is written. A phrase is the text of an expression together with its rank, which
says between what it may stand without parentheses, and with the number of brackets that are
inside each other in it. Literals stand between single quotes and patterns between backticks;
every item has a gap behind it.
-/

namespace Seedling.Ebnf

/-! ### Characters -/

def isNameStart (c : Char) : Bool := c.isAlpha || c = '_'

def isNameChar (c : Char) : Bool := c.isAlphanum || c = '_'

/-- A letter or an underscore, and behind it letters, digits and underscores. -/
def isIdentifier (name : String) : Bool :=
  name.toList.head?.any isNameStart && name.toList.tail.all isNameChar

def isBlank (c : Char) : Bool := [' ', '\t', '\r', '\n'].contains c

/-- The blanks of a text: `gap` behind each item, and `margin` wherever else blanks may be. -/
structure Layout where
  gap : List Char
  margin : List Char
  gap_ne : gap ≠ []
  gap_blank : ∀ c ∈ gap, isBlank c = true
  margin_blank : ∀ c ∈ margin, isBlank c = true

/-- A quote and a backslash have a backslash before them. -/
def escape (c : Char) : List Char := if c = '\'' || c = '\\' then ['\\', c] else [c]

def quote (text : String) : List Char := '\'' :: (text.toList.flatMap escape ++ ['\''])

def fence (pattern : String) : List Char := '`' :: (pattern.toList ++ ['`'])

/-- The sign of a repetition, for those that have one. -/
def repetitionSign? : Nat → Option Nat → Option Char
  | 0, none => some '*'
  | 1, none => some '+'
  | 0, some 1 => some '?'
  | _, _ => none

def lookaheadSign (positive : Bool) : Char := if positive then '&' else '!'

/-! ### Phrases -/

inductive Bracket where
  | round
  | square
  | angle
deriving DecidableEq

def Bracket.opening : Bracket → Char
  | .round => '('
  | .square => '['
  | .angle => '<'

def Bracket.closing : Bracket → Char
  | .round => ')'
  | .square => ']'
  | .angle => '>'

inductive Rank where
  | operand
  | item
  | sequence
  | choice
deriving DecidableEq

def Rank.level : Rank → Nat
  | .operand => 0
  | .item => 1
  | .sequence => 2
  | .choice => 3

structure Phrase where
  rank : Rank
  chars : List Char
  /-- How many brackets are inside each other. -/
  nesting : Nat

namespace Phrase

def plain (chars : List Char) : Phrase := ⟨.operand, chars, 0⟩

def deepest (xs : List Phrase) : Nat := (xs.map nesting).foldr max 0

variable (layout : Layout)

/-- The text of a phrase that is no operand, with the gap behind it if it was one. -/
def spaced (x : Phrase) : List Char :=
  match x.rank with
  | .operand => x.chars ++ layout.gap
  | _ => x.chars

def enclosed (bracket : Bracket) (x : Phrase) : Phrase :=
  ⟨.operand, [bracket.opening] ++ (layout.margin ++ (x.spaced layout ++ [bracket.closing])),
    x.nesting + 1⟩

/-- The phrase where nothing above a rank may stand. -/
def upTo (rank : Rank) (x : Phrase) : Phrase :=
  if x.rank.level ≤ rank.level then x else x.enclosed layout .round

def signed (before : Option Char) (x : Phrase) (behind : Option Char) : Phrase :=
  let x := x.upTo layout .operand
  ⟨.item, before.toList ++ (x.chars ++ (behind.toList ++ layout.gap)), x.nesting⟩

def sequence (xs : List Phrase) : Phrase :=
  let xs := xs.map (upTo layout .item)
  ⟨.sequence, xs.flatMap (spaced layout), deepest xs⟩

def branch (x : Phrase) : List Char := ['|'] ++ (layout.margin ++ x.spaced layout)

def choice (xs : List Phrase) : Phrase :=
  let xs := xs.map (upTo layout .sequence)
  ⟨.choice, (xs.head?.map (spaced layout)).getD [] ++ xs.tail.flatMap (branch layout), deepest xs⟩

end Phrase

namespace Expr

mutual

def phrase (layout : Layout) : Expr → Phrase
  | .name n => .plain n.toList
  | .terminal (.literal text) => .plain (quote text)
  | .terminal (.pattern pattern) => .plain (fence pattern)
  | .sequence items => .sequence layout (phrases layout items)
  | .choice items => .choice layout (phrases layout items)
  | .repetition e min max => .signed layout none (e.phrase layout) (repetitionSign? min max)
  | .lookahead e positive => .signed layout (some (lookaheadSign positive)) (e.phrase layout) none
  | .discard e => (e.phrase layout).enclosed layout .square
  | .splice e => (e.phrase layout).enclosed layout .angle

def phrases (layout : Layout) : List Expr → List Phrase
  | [] => []
  | e :: rest => e.phrase layout :: phrases layout rest

end

mutual

/-- The expressions that have a text: names are identifiers, patterns have no backticks, there
are no groups of one, and repetitions are those that have a sign. -/
def isWritable : Expr → Bool
  | .name n => isIdentifier n
  | .terminal (.literal _) => true
  | .terminal (.pattern pattern) => !pattern.toList.contains '`'
  | .sequence items => items.length ≠ 1 && allWritable items
  | .choice items => 2 ≤ items.length && allWritable items
  | .repetition e min max => (repetitionSign? min max).isSome && e.isWritable
  | .lookahead e _ => e.isWritable
  | .discard e => e.isWritable
  | .splice e => e.isWritable

def allWritable : List Expr → Bool
  | [] => true
  | e :: rest => e.isWritable && allWritable rest

end

end Expr

namespace Production

variable (layout : Layout)

def isWritable (p : Production) : Bool := isIdentifier p.name && p.body.isWritable

def nesting (p : Production) : Nat := (p.body.phrase layout).nesting

def chars (p : Production) : List Char :=
  p.name.toList ++ (layout.margin ++ ([':'] ++ (layout.margin ++
    ((p.body.phrase layout).spaced layout ++ ([';'] ++ layout.margin)))))

end Production

def print (layout : Layout) (ps : List Production) : String :=
  String.ofList (layout.margin ++ ps.flatMap (Production.chars layout))

end Seedling.Ebnf
