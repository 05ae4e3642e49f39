import Seedling.Regex.Pattern
import Seedling.SortedSet
import Seedling.Source.Position

/-!
Why a grammar is refused.
-/

namespace Seedling

inductive GrammarError where
  | empty
  | duplicateRule (name : String)
  | undefinedRule (name : String)
  /-- A text terminal and a token in one grammar. -/
  | mixedModes (textTerminal token : String)
  | invalidPattern (error : Regex.PatternError)
  /-- Left recursion that has to recur before it can succeed. -/
  | unresolvableLeftRecursion (cycle : List String)
  | invalidReference (owner : String) (index : Nat)
  /-- Grammar text that cannot be read. -/
  | malformed (location : Source.Position) (expected : List String)
  /-- A text that is not a document of a grammar. -/
  | unreadable
  /-- A document that was read and then refused. -/
  | document (reason : String)
deriving DecidableEq

/-- Labels in a sentence: `a, b or c`. -/
def orList (expected : SortedSet String) : String :=
  match expected.toList.reverse with
  | [] => "nothing"
  | [last] => last
  | last :: rest => ", ".intercalate rest.reverse ++ " or " ++ last

def GrammarError.message : GrammarError → String
  | .empty => "grammar defines no rules"
  | .duplicateRule name => "rule '" ++ name ++ "' is defined twice"
  | .undefinedRule name => "rule '" ++ name ++ "' is referenced but never defined"
  | .mixedModes textTerminal token =>
      "grammar mixes inline terminal " ++ textTerminal ++ " with token " ++ token
  | .invalidPattern e => "invalid inline regex: " ++ e.message
  | .unresolvableLeftRecursion cycle =>
      "left recursion through " ++ " -> ".intercalate cycle ++
        " has no alternative that consumes input first"
  | .invalidReference owner index => owner ++ " refers to missing index " ++ toString index
  | .malformed location expected =>
      "grammar syntax error at " ++ location.describe ++ ": expected " ++
        orList (.ofList expected)
  | .unreadable => "invalid grammar JSON: not a description of a grammar"
  | .document reason => "invalid grammar JSON: " ++ reason

end Seedling
