import Seedling.Automaton.Dfa
import Seedling.Lexer.Basic
import Seedling.Parse.Error

/-!
All that can go wrong, in one type.
-/

namespace Seedling

inductive Error where
  | pattern (e : Regex.PatternError)
  | automaton (e : Automaton.AutomatonError)
  | lexer (e : LexError)
  | grammar (e : GrammarError)
  | parse (e : ParseError)

namespace Error

def message : Error → String
  | .pattern e => e.message
  | .automaton e => e.message
  | .lexer e => e.message
  | .grammar e => e.message
  | .parse e => e.message

/-- The place in the text, or in the tokens, that the error is about. -/
def position? : Error → Option Nat
  | .pattern e => some e.position
  | .automaton _ => none
  | .lexer e => some e.position.offset
  | .grammar (.malformed location _) => some location.offset
  | .grammar _ => none
  | .parse e => e.position?

/-- The messages of the errors behind this one, the nearest first. -/
def causes : Error → List String
  | .grammar (.invalidPattern e) => [(GrammarError.invalidPattern e).message, e.message]
  | e => [e.message]

end Error

end Seedling
