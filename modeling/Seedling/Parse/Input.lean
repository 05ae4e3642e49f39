import Seedling.Grammar.Basic
import Seedling.Source.Lines
import Seedling.Tree.Basic

/-!
What is parsed: a text, where positions are byte offsets, or tokens, where they are indices. A
terminal matches at a position or does not; nothing else of the input is ever looked at.
-/

namespace Seedling

inductive Input where
  | text (text : String)
  | tokens (tokens : List Token)

namespace Input

def mode : Input → Mode
  | .text _ => .text
  | .tokens _ => .tokens

def length : Input → Nat
  | .text s => s.utf8ByteSize
  | .tokens ts => ts.length

end Input

/-- An input made ready for parsing. -/
inductive Subject where
  | text (bytes : List UInt8) (lines : Source.LineIndex)
  | tokens (tokens : Array Token)

namespace Subject

def ofInput : Input → Subject
  | .text s => .text (Text.bytes s) (.ofBytes (Text.bytes s))
  | .tokens ts => .tokens ts.toArray

def length : Subject → Nat
  | .text _ lines => lines.length
  | .tokens ts => ts.size

/-- Where a position is in the source. A position behind the last token is where that token ends. -/
def location (subject : Subject) (pos : Nat) : Source.Position :=
  match subject with
  | .text _ lines => lines.position pos
  | .tokens ts =>
      match ts[pos]? with
      | some token => token.position
      | none =>
          match ts.back? with
          | some last => last.position.advance (Text.bytes last.source)
          | none => .start

/-- The match of a terminal at a position: where it stops, and its leaf. -/
def matchTerminal (subject : Subject) (g : Grammar) (id : AtomId) (pos : Nat) :
    Option (Nat × ParseTree) :=
  match subject, g.atoms[id]? with
  | .text bytes lines, some (.literal s) =>
      if (Text.bytes s).isPrefixOf (bytes.drop pos) then
        some (pos + s.utf8ByteSize, .leaf (g.label id) s (lines.position pos))
      else none
  | .text bytes lines, some (.pattern _) => do
      match (← g.matcher? id).longestMatch bytes pos with
      | .ok m =>
          some (m.stop, .leaf (g.label id) (Text.decode (Source.slice bytes pos m.stop))
            (lines.position pos))
      | .error _ => none
  | .tokens ts, some (.token name) => do
      let token ← ts[pos]?
      if token.name = name then some (pos + 1, .leaf name token.source token.position) else none
  | _, _ => none

end Subject

end Seedling
