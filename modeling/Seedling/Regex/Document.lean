import Seedling.Json.Decode
import Seedling.Regex.Basic

/-!
Expressions as documents: a case for each kind of expression, with its operands in a list when there
are two of them.
-/

namespace Seedling.Regex

def byteDocument (b : UInt8) : Json := .ofNat b.toNat

def document : Regex → Json
  | .literal bs => .record [("Literal", .array (bs.map byteDocument))]
  | .range lo hi => .record [("Range", .array [byteDocument lo, byteDocument hi])]
  | .concat a b => .record [("Concat", .array [a.document, b.document])]
  | .star a => .record [("Star", a.document)]
  | .or a b => .record [("Or", .array [a.document, b.document])]
  | .tag a name => .record [("Tag", .array [a.document, .ofString name])]
  | .not a => .record [("Not", a.document)]

/-- Reads an expression with room for so many brackets inside each other: those of the case, and
those of the list that all but two kinds of expression have. -/
def ofDocument : Nat → Json → Option Regex
  | 0, _ => none
  | room + 1, j => do
      let (name, content) ← Json.asCase j
      if name = "Star" then return .star (← ofDocument room content)
      else if name = "Not" then return .not (← ofDocument room content)
      else
        let room + 1 := room | none
        if name = "Literal" then return .literal (← Json.asList Json.asByte content)
        else
          let .array [x, y] := content | none
          if name = "Range" then return .range (← Json.asByte x) (← Json.asByte y)
          else if name = "Concat" then return .concat (← ofDocument room x) (← ofDocument room y)
          else if name = "Or" then return .or (← ofDocument room x) (← ofDocument room y)
          else if name = "Tag" then return .tag (← ofDocument room x) (← Json.asString y)
          else none

end Seedling.Regex
