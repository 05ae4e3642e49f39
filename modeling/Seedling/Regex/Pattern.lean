import Seedling.Regex.Basic
import Seedling.Text.Utf8

/-!
The pattern notation for expressions, read byte by byte. Groups that are still open wait on a stack;
a quantifier applies to the item read last. A brace that does not open a well-formed count is an
ordinary byte. Faults carry the offset at which they were noticed.
-/

namespace Seedling.Regex

inductive PatternFault where
  | unmatchedClose
  | unclosedGroup
  | nothingToRepeat (quantifier : UInt8)
  | boundsOutOfOrder (min max : Nat)
  | trailingBackslash
  | badHexEscape
  | octalAboveByte
  | badControlEscape
  | unknownEscape (letter : UInt8)
  | unclosedClass
  | shorthandEndsRange
  | rangeOutOfOrder (lo hi : UInt8)
  /-- A fault in words of its own. -/
  | other (reason : String)
deriving DecidableEq

structure PatternError where
  pattern : String
  position : Nat
  fault : PatternFault
deriving DecidableEq

def byteChar (b : UInt8) : String := String.singleton (Char.ofNat b.toNat)

def PatternFault.message : PatternFault → String
  | .unmatchedClose => "unmatched ')'"
  | .unclosedGroup => "unclosed group '('"
  | .nothingToRepeat q => "nothing to repeat before '" ++ byteChar q ++ "'"
  | .boundsOutOfOrder min max =>
      "repetition bounds out of order: \x7b" ++ toString min ++ "," ++ toString max ++ "\x7d"
  | .trailingBackslash => "trailing backslash"
  | .badHexEscape => "\\x must be followed by two hex digits"
  | .octalAboveByte => "octal escape above \\377"
  | .badControlEscape => "\\c must be followed by a control letter"
  | .unknownEscape c => "unknown escape '\\" ++ byteChar c ++ "'"
  | .unclosedClass => "unclosed character class '['"
  | .shorthandEndsRange => "class shorthand cannot end a range"
  | .rangeOutOfOrder lo hi =>
      "character class range " ++ byteChar lo ++ "-" ++ byteChar hi ++ " is out of order"
  | .other reason => reason

def PatternError.message (e : PatternError) : String :=
  "regex error at byte " ++ toString e.position ++ " in `" ++ e.pattern ++ "`: " ++
    e.fault.message

def isChar (b : UInt8) (c : Char) : Bool := b.toNat = c.toNat

def isBetween (b : UInt8) (lo hi : Char) : Bool := lo.toNat ≤ b.toNat && b.toNat ≤ hi.toNat

def isDigit (b : UInt8) : Bool := isBetween b '0' '9'

def isOctal (b : UInt8) : Bool := isBetween b '0' '7'

def isLetter (b : UInt8) : Bool := isBetween b 'a' 'z' || isBetween b 'A' 'Z'

def digitValue (b : UInt8) : Nat := b.toNat - '0'.toNat

def hexValue (b : UInt8) : Option Nat :=
  if isDigit b then some (digitValue b)
  else if isBetween b 'a' 'f' then some (b.toNat - 'a'.toNat + 10)
  else if isBetween b 'A' 'F' then some (b.toNat - 'A'.toNat + 10)
  else none

/-- Two places of a hexadecimal number, of which the first may be a plus sign. -/
def hexPair (a b : UInt8) : Option UInt8 := do
  let low ← hexValue b
  if isChar a '+' then return low.toUInt8
  let high ← hexValue a
  return (high * 16 + low).toUInt8

def decimal (ds : List UInt8) : Option Nat :=
  if ds.isEmpty then none
  else (some (ds.foldl (fun n d => n * 10 + digitValue d) 0)).filter (· < UInt64.size)

/-- The bounds of a count whose opening brace has been read, and how many bytes they take. An upper
bound that is missing or too large to be read is no bound. -/
def count (cs : List UInt8) : Option (Nat × Option Nat × Nat) :=
  let lower := cs.takeWhile isDigit
  match decimal lower, cs.drop lower.length with
  | some min, b :: rest =>
      if isChar b '\x7d' then some (min, some min, lower.length + 1)
      else if isChar b ',' then
        let upper := rest.takeWhile isDigit
        match rest.drop upper.length with
        | b :: _ =>
            if isChar b '\x7d' then some (min, decimal upper, lower.length + upper.length + 2)
            else none
        | [] => none
      else none
  | _, _ => none

inductive Escaped where
  | byte (b : UInt8)
  | set (s : UInt8 → Bool)

def digitSet : UInt8 → Bool := isDigit

def spaceSet (b : UInt8) : Bool := isBetween b '\t' '\r' || isChar b ' '

def wordSet (b : UInt8) : Bool := isDigit b || isLetter b || isChar b '_'

/-- The octal digits that continue an escape, two at most. -/
def octalTail (cs : List UInt8) : List UInt8 := (cs.take 2).takeWhile isOctal

/-- The escape whose backslash has been read, and how many bytes it takes. Inside a class, `b`
is the backspace. -/
def escape (inClass : Bool) : List UInt8 → Except PatternFault (Escaped × Nat)
  | [] => .error .trailingBackslash
  | c :: rest =>
      let one (b : UInt8) : Except PatternFault (Escaped × Nat) := .ok (.byte b, 1)
      if isChar c 'd' then .ok (.set digitSet, 1)
      else if isChar c 'D' then .ok (.set fun b => !digitSet b, 1)
      else if isChar c 's' then .ok (.set spaceSet, 1)
      else if isChar c 'S' then .ok (.set fun b => !spaceSet b, 1)
      else if isChar c 'w' then .ok (.set wordSet, 1)
      else if isChar c 'W' then .ok (.set fun b => !wordSet b, 1)
      else if isChar c 'n' then one 0x0a
      else if isChar c 't' then one 0x09
      else if isChar c 'r' then one 0x0d
      else if isChar c 'f' then one 0x0c
      else if isChar c 'v' then one 0x0b
      else if isChar c 'a' then one 0x07
      else if isChar c 'e' then one 0x1b
      else if inClass && isChar c 'b' then one 0x08
      else if isChar c 'x' then
        match rest with
        | a :: b :: _ =>
            match hexPair a b with
            | some v => .ok (.byte v, 3)
            | none => .error .badHexEscape
        | _ => .error .badHexEscape
      else if isOctal c then
        let tail := octalTail rest
        let value := (c :: tail).foldl (fun n d => n * 8 + digitValue d) 0
        if value < 256 then .ok (.byte value.toUInt8, tail.length + 1) else .error .octalAboveByte
      else if isChar c 'c' then
        match rest with
        | x :: _ =>
            if isLetter x || isBetween x '@' '_' then .ok (.byte (x &&& 0x1f), 2)
            else .error .badControlEscape
        | [] => .error .badControlEscape
      else if isLetter c || isDigit c then .error (.unknownEscape c)
      else one c

/-- A fault and the offset at which it was noticed. -/
abbrev Located := Nat × PatternFault

/-- Whether what follows an item of a class makes it the start of a range. -/
def opensRange : List UInt8 → Bool
  | dash :: next :: _ => isChar dash '-' && !isChar next ']'
  | _ => false

/-- The upper end of a range and how many bytes it takes; the item starts at offset `item`. -/
def rangeEnd (item pos : Nat) : List UInt8 → Except Located (UInt8 × Nat)
  | [] => .error (item, .unclosedClass)
  | c :: rest =>
      if isChar c '\\' then
        match escape true rest with
        | .error fault => .error (pos, fault)
        | .ok (.set _, _) => .error (item, .shorthandEndsRange)
        | .ok (.byte b, n) => .ok (b, n + 1)
      else .ok (c, 1)

/-- One item of a class: the bytes it adds and how many bytes it takes after its first. -/
def classItem (pos : Nat) (c : UInt8) (rest : List UInt8) :
    Except Located ((UInt8 → Bool) × Nat) := do
  let (lo, taken) ←
    if isChar c '\\' then
      match escape true rest with
      | .error fault => .error (pos, fault)
      | .ok r => .ok r
    else .ok (.byte c, 0)
  match lo with
  | .set s => return (s, taken)
  | .byte lo =>
      let rest := rest.drop taken
      if opensRange rest then
        let (hi, n) ← rangeEnd pos (pos + taken + 2) (rest.drop 1)
        if hi < lo then throw (pos, .rangeOutOfOrder lo hi)
        return (fun b => lo ≤ b && b ≤ hi, taken + n + 1)
      else return (fun b => b == lo, taken)

/-- The items of a class up to its closing bracket, which the first item may look like. Gives the
set and the offset behind the class. -/
def classItems (opened : Nat) (first : Bool) (set : UInt8 → Bool) (pos : Nat) :
    List UInt8 → Except Located ((UInt8 → Bool) × Nat)
  | [] => .error (opened, .unclosedClass)
  | c :: rest =>
      if isChar c ']' && !first then .ok (set, pos + 1)
      else
        match classItem pos c rest with
        | .error e => .error e
        | .ok (item, n) =>
            classItems opened false (fun b => set b || item b) (pos + 1 + n) (rest.drop n)
termination_by cs => cs.length
decreasing_by simp only [List.length_drop, List.length_cons]; omega

/-- The class that opened at offset `opened`, and the offset behind it. -/
def characterClass (opened : Nat) (cs : List UInt8) : Except Located (Regex × Nat) :=
  match cs with
  | [] => .error (opened, .unclosedClass)
  | c :: rest =>
      if isChar c '^' then do
        let (set, stop) ← classItems opened true (fun _ => false) (opened + 2) rest
        return (ofByteSet fun b => !set b, stop)
      else do
        let (set, stop) ← classItems opened true (fun _ => false) (opened + 1) cs
        return (ofByteSet set, stop)

/-- What has been read of a group: finished branches and the items of the last one, both with the
newest first. -/
structure Level where
  branches : List Regex
  items : List Regex

namespace Level

def empty : Level := ⟨[], []⟩

def push (level : Level) (r : Regex) : Level := { level with items := r :: level.items }

def branch (level : Level) : Level := ⟨sequence level.items.reverse :: level.branches, []⟩

def close (level : Level) : Regex := alternatives level.branch.branches.reverse

end Level

/-- What a single byte or an opened class or escape at `pos` stands for, and how many bytes it takes
after its first. -/
def atom (pos : Nat) (c : UInt8) (rest : List UInt8) : Except Located (Regex × Nat) :=
  if isChar c '[' then do
    let (r, stop) ← characterClass pos rest
    return (r, stop - (pos + 1))
  else if isChar c '.' then .ok (anyByte, 0)
  else if isChar c '\\' then
    match escape false rest with
    | .error fault => .error (pos, fault)
    | .ok (.byte b, n) => .ok (.literal [b], n)
    | .ok (.set s, n) => .ok (ofByteSet s, n)
  else if isChar c '*' || isChar c '+' || isChar c '?' then .error (pos, .nothingToRepeat c)
  else .ok (.literal [c], 0)

/-- The item read last under the quantifier that starts with `c`, and how many bytes it takes after
its first; `none` when `c` starts no quantifier. -/
def quantified (pos : Nat) (r : Regex) (c : UInt8) (rest : List UInt8) :
    Except Located (Option (Regex × Nat)) :=
  if isChar c '*' then .ok (some (.star r, 0))
  else if isChar c '+' then .ok (some (r.plus, 0))
  else if isChar c '?' then .ok (some (r.optional, 0))
  else if isChar c '\x7b' then
    match count rest with
    | none => .ok none
    | some (min, max, n) =>
        match max with
        | some bound =>
            if bound < min then .error (pos, .boundsOutOfOrder min bound)
            else .ok (some (r.repeat min max, n))
        | none => .ok (some (r.repeat min max, n))
  else .ok none

/-- The next item of a level, and how many bytes it takes after its first. -/
def item (pos : Nat) (level : Level) (c : UInt8) (rest : List UInt8) :
    Except Located (Level × Nat) := do
  match level.items with
  | [] =>
      let (r, n) ← atom pos c rest
      return (level.push r, n)
  | last :: items =>
      match ← quantified pos last c rest with
      | some (r, n) => return ({ level with items := r :: items }, n)
      | none =>
          let (r, n) ← atom pos c rest
          return (level.push r, n)

/-- Reads from offset `pos` on. `outer` holds the groups that are still open, each with the offset
of its parenthesis. -/
def readFrom (pos : Nat) (level : Level) (outer : List (Nat × Level)) :
    List UInt8 → Except Located Regex
  | [] =>
      match outer with
      | [] => .ok level.close
      | (opened, _) :: _ => .error (opened, .unclosedGroup)
  | c :: rest =>
      if isChar c '|' then readFrom (pos + 1) level.branch outer rest
      else if isChar c '(' then readFrom (pos + 1) .empty ((pos, level) :: outer) rest
      else if isChar c ')' then
        match outer with
        | [] => .error (pos, .unmatchedClose)
        | (_, up) :: outer => readFrom (pos + 1) (up.push level.close) outer rest
      else
        match item pos level c rest with
        | .error e => .error e
        | .ok (level, n) => readFrom (pos + 1 + n) level outer (rest.drop n)
termination_by cs => cs.length
decreasing_by all_goals simp only [List.length_drop, List.length_cons]; omega

def parse (pattern : String) : Except PatternError Regex :=
  match readFrom 0 .empty [] (Text.bytes pattern) with
  | .ok r => .ok r
  | .error (position, fault) => .error ⟨pattern, position, fault⟩

end Seedling.Regex
