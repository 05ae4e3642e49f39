import Seedling.Json.Decode
import Seedling.Source.Position

/-!
Positions in documents.
-/

namespace Seedling.Source.Position

def document (p : Position) : Json :=
  .record [("offset", .ofNat p.offset), ("line", .ofNat p.line), ("column", .ofNat p.column)]

def ofDocument (j : Json) : Option Position := do
  match ← Json.allFields ["offset", "line", "column"] j with
  | [offset, line, column] =>
      return ⟨← Json.asNat offset, ← Json.asNat line, ← Json.asNat column⟩
  | _ => none

end Seedling.Source.Position
