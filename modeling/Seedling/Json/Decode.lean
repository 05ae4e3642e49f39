import Seedling.Json.Reader

/-!
Taking values out of documents. A record is read from an object, where unknown members are skipped
without a look at their values and a known one must not come twice, or from an array that lists
its fields in order. A choice is an object with one member, which names the case.
-/

namespace Seedling.Json

/-- How many brackets may stand inside each other in what is looked into. -/
def maxBrackets : Nat := 127

def hexValue (c : Char) : Nat :=
  if c.isDigit then c.toNat - '0'.toNat
  else if 'a' ≤ c && c ≤ 'f' then c.toNat - 'a'.toNat + 10
  else c.toNat - 'A'.toNat + 10

def hexUnit (a b c d : Char) : Nat :=
  ((hexValue a * 16 + hexValue b) * 16 + hexValue c) * 16 + hexValue d

def isHighSurrogate (n : Nat) : Bool := 0xd800 ≤ n && n ≤ 0xdbff

def isLowSurrogate (n : Nat) : Bool := 0xdc00 ≤ n && n ≤ 0xdfff

/-- The character that a short escape stands for. -/
def shortEscape (c : Char) : Char :=
  if c = 'n' then '\n'
  else if c = 'r' then '\r'
  else if c = 't' then '\t'
  else if c = 'b' then Char.ofNat 8
  else if c = 'f' then Char.ofNat 12
  else c

/-- The code points of a lexeme; those written as four digits are marked, since two of them may
make up one character. -/
def codePoints : List Char → List (Bool × Nat)
  | [] => []
  | '\\' :: 'u' :: a :: b :: c :: d :: rest => (true, hexUnit a b c d) :: codePoints rest
  | '\\' :: c :: rest => (false, (shortEscape c).toNat) :: codePoints rest
  | c :: rest => (false, c.toNat) :: codePoints rest

/-- Joins the surrogates, which must come in pairs. -/
def joinSurrogates : List (Bool × Nat) → Option (List Char)
  | [] => some []
  | (false, n) :: rest => (joinSurrogates rest).map (Char.ofNat n :: ·)
  | (true, n) :: rest =>
      if isHighSurrogate n then
        match rest with
        | (true, m) :: rest =>
            if isLowSurrogate m then
              (joinSurrogates rest).map
                (Char.ofNat (0x10000 + (n - 0xd800) * 0x400 + (m - 0xdc00)) :: ·)
            else none
        | _ => none
      else if isLowSurrogate n then none
      else (joinSurrogates rest).map (Char.ofNat n :: ·)

def textOf (lexeme : List Char) : Option String :=
  (joinSurrogates (codePoints lexeme)).map String.ofList

def decimal (lexeme : List Char) : Option Nat :=
  if lexeme = [] || !lexeme.all Char.isDigit || (lexeme.head? = some '0' && lexeme ≠ ['0'])
    then none
  else some (lexeme.foldl (fun n c => n * 10 + (c.toNat - '0'.toNat)) 0)

/-- Whole numbers must fit into 64 bits. -/
def asNat : Json → Option Nat
  | .number lexeme => (decimal lexeme).filter (· < UInt64.size)
  | _ => none

def asByte (j : Json) : Option UInt8 := ((asNat j).filter (· < 256)).map Nat.toUInt8

def asBool : Json → Option Bool
  | .bool b => some b
  | _ => none

def asString : Json → Option String
  | .string lexeme => textOf lexeme
  | _ => none

/-- Null stands for an absent value. -/
def asOption {α : Type} (f : Json → Option α) : Json → Option (Option α)
  | .null => some none
  | j => (f j).map some

def asList {α : Type} (f : Json → Option α) : Json → Option (List α)
  | .array items => items.mapM f
  | _ => none

/-- An object whose keys are bytes in decimal. -/
def asByteMap {α : Type} (f : Json → Option α) : Json → Option (List (UInt8 × α))
  | .object members => members.mapM fun p => do
      let key ← (decimal p.1).filter (· < 256)
      let value ← f p.2
      return (key.toUInt8, value)
  | _ => none

/-- The values of the named fields of a record, `none` for a field that is missing. -/
def fields (names : List String) : Json → Option (List (Option Json))
  | .array items => if items.length = names.length then some (items.map some) else none
  | .object members => do
      let named ← members.mapM fun p => (textOf p.1).map fun key => (key, p.2)
      names.mapM fun name =>
        match named.filter fun p => p.1 = name with
        | [] => some none
        | [p] => some (some p.2)
        | _ => none
  | _ => none

/-- The values of the named fields of a record that has all of them. -/
def allFields (names : List String) (j : Json) : Option (List Json) := do
  (← fields names j).mapM id

/-- The name of a case and what it holds. -/
def asCase : Json → Option (String × Json)
  | .object [(key, value)] => (textOf key).map fun name => (name, value)
  | _ => none

end Seedling.Json
