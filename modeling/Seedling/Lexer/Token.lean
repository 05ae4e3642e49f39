import Seedling.Source.Document
import Seedling.Text.Quoted
import Seedling.Text.Utf8

/-!
Tokens: a name, the text that was matched, and where it starts.
-/

namespace Seedling

structure Token where
  name : String
  source : String
  position : Source.Position
deriving DecidableEq

namespace Token

def eofName : String := "EOF"

def eof (position : Source.Position) : Token := ⟨eofName, "", position⟩

def isEof (t : Token) : Bool := t.name = eofName && t.source.isEmpty

def endOffset (t : Token) : Nat := t.position.offset + t.source.utf8ByteSize

def describe (t : Token) : String :=
  t.name ++ "(" ++ Text.quoted t.source ++ ") at " ++ t.position.describe

def document (t : Token) : Json :=
  .record
    [("name", .ofString t.name), ("source", .ofString t.source),
     ("position", t.position.document)]

end Token

end Seedling
