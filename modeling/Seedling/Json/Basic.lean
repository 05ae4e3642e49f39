import Seedling.Text.Quoted

/-!
Documents as they are written. Strings and numbers are kept as lexemes, the characters that stand in
the text, and are decoded only when a reader asks for their value; so a document may hold parts
that nobody looks at and that would not decode.
-/

namespace Seedling

inductive Json where
  | null
  | bool (b : Bool)
  | number (lexeme : List Char)
  | string (lexeme : List Char)
  | array (items : List Json)
  | object (members : List (List Char × Json))

namespace Json

/-- How a character is written between the quotes of a string. -/
def escapeChar (c : Char) : List Char :=
  if c = '"' then ['\\', '"']
  else if c = '\\' then ['\\', '\\']
  else if c = '\n' then ['\\', 'n']
  else if c = '\r' then ['\\', 'r']
  else if c = '\t' then ['\\', 't']
  else if c.toNat = 8 then ['\\', 'b']
  else if c.toNat = 12 then ['\\', 'f']
  else if c.toNat < 32 then ['\\', 'u', '0', '0'] ++ (Text.hexByte c.toNat.toUInt8).toList
  else [c]

def escape (cs : List Char) : List Char := cs.flatMap escapeChar

def ofNat (n : Nat) : Json := .number (Nat.toDigits 10 n)

def ofString (s : String) : Json := .string (escape s.toList)

def ofStrings (l : List String) : Json := .array (l.map ofString)

def ofNats (l : List Nat) : Json := .array (l.map ofNat)

def ofOption {α : Type} (f : α → Json) : Option α → Json
  | none => .null
  | some a => f a

def record (fields : List (String × Json)) : Json :=
  .object (fields.map fun p => (escape p.1.toList, p.2))

mutual

/-- The compact text of a document: no blanks, members in order. -/
def render : Json → List Char
  | .null => ['n', 'u', 'l', 'l']
  | .bool true => ['t', 'r', 'u', 'e']
  | .bool false => ['f', 'a', 'l', 's', 'e']
  | .number lexeme => lexeme
  | .string lexeme => '"' :: lexeme ++ ['"']
  | .array items => '[' :: renderItems items ++ [']']
  | .object members => '\x7b' :: renderMembers members ++ ['\x7d']

def renderItems : List Json → List Char
  | [] => []
  | [item] => render item
  | item :: next :: rest => render item ++ ',' :: renderItems (next :: rest)

def renderMembers : List (List Char × Json) → List Char
  | [] => []
  | [(key, value)] => '"' :: key ++ '"' :: ':' :: render value
  | (key, value) :: next :: rest =>
      '"' :: key ++ '"' :: ':' :: render value ++ ',' :: renderMembers (next :: rest)

end

def text (j : Json) : String := String.ofList j.render

end Json

end Seedling
