import Seedling.Grammar.Basic
import Seedling.Grammar.Error
import Seedling.Source.Lines

/-!
How parsing fails. A failure says at which position what would have been accepted; of two
failures the one further on counts. An error is what is left when the whole parse has failed or
was given up.
-/

namespace Seedling

structure Failure where
  position : Nat
  expected : SortedSet String
deriving DecidableEq

namespace Failure

/-- A failure at a position where nothing in particular was expected. -/
def here (position : Nat) : Failure := ⟨position, .empty⟩

def expecting (position : Nat) (label : String) : Failure := ⟨position, .singleton label⟩

instance : Inhabited Failure := ⟨.here 0⟩

/-- The failure further on; at the same position what either expects. -/
def combine (f other : Failure) : Failure :=
  if f.position < other.position then other
  else if other.position = f.position then ⟨f.position, f.expected.union other.expected⟩
  else f

end Failure

inductive ParseError where
  | failed (position : Nat) (expected : SortedSet String) (location : Source.Position)
  /-- The start rule matched, but not the whole input. -/
  | incomplete (consumed position : Nat) (expected : SortedSet String) (location : Source.Position)
  | recursionLimitExceeded (depth maxDepth : Nat)
  | timeoutExceeded (elapsed limit : Nat)
  | inputTooLarge (size maxSize : Nat)
  | modeMismatch (grammar input : Mode)
  | unknownRule (name : String)
deriving DecidableEq

namespace ParseError

def position? : ParseError → Option Nat
  | .failed position _ _ => some position
  | .incomplete _ position _ _ => some position
  | _ => none

def expected : ParseError → SortedSet String
  | .failed _ expected _ => expected
  | .incomplete _ _ expected _ => expected
  | _ => .empty

def location? : ParseError → Option Source.Position
  | .failed _ _ location => some location
  | .incomplete _ _ _ location => some location
  | _ => none

/-- Whether a limit ended the parse and not the input. -/
def isLimit : ParseError → Bool
  | .recursionLimitExceeded .. => true
  | .timeoutExceeded .. => true
  | .inputTooLarge .. => true
  | _ => false

def message : ParseError → String
  | .failed _ labels location =>
      "parse error at " ++ location.describe ++ ": expected " ++ orList labels
  | .incomplete consumed _ labels location =>
      s!"parse incomplete after {consumed} units; at " ++ location.describe ++ ": expected " ++
        orList labels
  | .recursionLimitExceeded depth maxDepth =>
      s!"recursion limit exceeded: depth {depth} exceeds limit of {maxDepth}"
  | .timeoutExceeded elapsed limit => s!"timeout exceeded: {elapsed}ms exceeds limit of {limit}ms"
  | .inputTooLarge size maxSize => s!"input too large: {size} exceeds limit of {maxSize}"
  | .modeMismatch grammar input =>
      "grammar matches " ++ grammar.name ++ " but was given " ++ input.name
  | .unknownRule name => "unknown rule '" ++ name ++ "'"

def report (e : ParseError) (text : String) : String :=
  match e.location? with
  | some location => e.message ++ "\n" ++ Source.excerpt (Text.bytes text) location.offset 1
  | none => e.message

end ParseError

end Seedling
