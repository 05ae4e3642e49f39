import Seedling.Json.Basic

/-!
Reading documents. Each function takes characters from the front and gives back the rest. The
recursion is bounded by the length of the text: every call is paid for by a character.
-/

namespace Seedling.Json

def isSpace (c : Char) : Bool := c = ' ' || c = '\n' || c = '\t' || c = '\r'

def skipSpace (cs : List Char) : List Char := cs.dropWhile isSpace

def isHexDigit (c : Char) : Bool :=
  c.isDigit || ('a' ≤ c && c ≤ 'f') || ('A' ≤ c && c ≤ 'F')

/-- The lexeme of a string up to its closing quote. Escapes are checked for their shape only. -/
def readLexeme : List Char → Option (List Char × List Char)
  | [] => none
  | '"' :: rest => some ([], rest)
  | '\\' :: 'u' :: a :: b :: c :: d :: rest =>
      if isHexDigit a && isHexDigit b && isHexDigit c && isHexDigit d then
        (readLexeme rest).map fun r => ('\\' :: 'u' :: a :: b :: c :: d :: r.1, r.2)
      else none
  | '\\' :: c :: rest =>
      if c ∈ ['"', '\\', '/', 'b', 'f', 'n', 'r', 't'] then
        (readLexeme rest).map fun r => ('\\' :: c :: r.1, r.2)
      else none
  | c :: rest =>
      if c.toNat < 32 || c = '\\' then none
      else (readLexeme rest).map fun r => (c :: r.1, r.2)

def readDigits (cs : List Char) : List Char × List Char :=
  (cs.takeWhile Char.isDigit, cs.dropWhile Char.isDigit)

def readWhole (cs : List Char) : Option (List Char × List Char) :=
  match cs with
  | '0' :: rest => some (['0'], rest)
  | _ => match readDigits cs with
      | ([], _) => none
      | r => some r

def readFraction (cs : List Char) : Option (List Char × List Char) :=
  match cs with
  | '.' :: rest => match readDigits rest with
      | ([], _) => none
      | (ds, rest) => some ('.' :: ds, rest)
  | _ => some ([], cs)

def readExponent (cs : List Char) : Option (List Char × List Char) :=
  let signed (e : Char) (cs : List Char) : Option (List Char × List Char) :=
    match cs with
    | '+' :: rest => match readDigits rest with
        | ([], _) => none
        | (ds, rest) => some (e :: '+' :: ds, rest)
    | '-' :: rest => match readDigits rest with
        | ([], _) => none
        | (ds, rest) => some (e :: '-' :: ds, rest)
    | _ => match readDigits cs with
        | ([], _) => none
        | (ds, rest) => some (e :: ds, rest)
  match cs with
  | 'e' :: rest => signed 'e' rest
  | 'E' :: rest => signed 'E' rest
  | _ => some ([], cs)

def readNumber (cs : List Char) : Option (List Char × List Char) := do
  let (sign, cs) := match cs with
    | '-' :: rest => (['-'], rest)
    | _ => ([], cs)
  let (whole, cs) ← readWhole cs
  let (fraction, cs) ← readFraction cs
  let (exponent, cs) ← readExponent cs
  return (sign ++ whole ++ fraction ++ exponent, cs)

mutual

def readValue : Nat → List Char → Option (Json × List Char)
  | 0, _ => none
  | n + 1, cs =>
      match skipSpace cs with
      | 'n' :: 'u' :: 'l' :: 'l' :: rest => some (.null, rest)
      | 't' :: 'r' :: 'u' :: 'e' :: rest => some (.bool true, rest)
      | 'f' :: 'a' :: 'l' :: 's' :: 'e' :: rest => some (.bool false, rest)
      | '"' :: rest => (readLexeme rest).map fun r => (.string r.1, r.2)
      | '[' :: rest =>
          match skipSpace rest with
          | ']' :: rest => some (.array [], rest)
          | rest => (readItems n rest).map fun r => (.array r.1, r.2)
      | '\x7b' :: rest =>
          match skipSpace rest with
          | '\x7d' :: rest => some (.object [], rest)
          | rest => (readMembers n rest).map fun r => (.object r.1, r.2)
      | cs => (readNumber cs).map fun r => (.number r.1, r.2)

/-- One or more items and the closing bracket. -/
def readItems : Nat → List Char → Option (List Json × List Char)
  | 0, _ => none
  | n + 1, cs =>
      match readValue n cs with
      | none => none
      | some (item, rest) =>
          match skipSpace rest with
          | ',' :: rest => (readItems n rest).map fun r => (item :: r.1, r.2)
          | ']' :: rest => some ([item], rest)
          | _ => none

/-- One or more members and the closing brace. -/
def readMembers : Nat → List Char → Option (List (List Char × Json) × List Char)
  | 0, _ => none
  | n + 1, cs =>
      match skipSpace cs with
      | '"' :: rest =>
          match readLexeme rest with
          | none => none
          | some (key, rest) =>
              match skipSpace rest with
              | ':' :: rest =>
                  match readValue n rest with
                  | none => none
                  | some (value, rest) =>
                      match skipSpace rest with
                      | ',' :: rest => (readMembers n rest).map fun r => ((key, value) :: r.1, r.2)
                      | '\x7d' :: rest => some ([(key, value)], rest)
                      | _ => none
              | _ => none
      | _ => none

end

/-- The document at the front of a text, and what stands after it. -/
def readFront (s : String) : Option (Json × List Char) :=
  readValue (2 * s.length + 2) s.toList

def atEnd (cs : List Char) : Bool := (skipSpace cs).isEmpty

/-- The document that a text consists of, blanks around it apart. -/
def read (s : String) : Option Json :=
  match readFront s with
  | some (j, rest) => if atEnd rest then some j else none
  | none => none

end Seedling.Json
