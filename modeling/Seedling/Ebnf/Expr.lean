import Seedling.Regex.Automaton
import Seedling.Regex.Pattern

/-!
Grammars as text describes them: productions, each a name and an expression. A production with an
upper-case name whose body is a terminal, or a choice of terminals, declares a token; all others are
rules.
-/

namespace Seedling.Ebnf

inductive Terminal where
  | literal (text : String)
  | pattern (pattern : String)
deriving DecidableEq

inductive Expr where
  | name (name : String)
  | terminal (t : Terminal)
  | sequence (items : List Expr)
  | choice (items : List Expr)
  | repetition (e : Expr) (min : Nat) (max : Option Nat)
  | lookahead (e : Expr) (positive : Bool)
  | discard (e : Expr)
  | splice (e : Expr)

structure Production where
  name : String
  body : Expr

namespace Terminal

/-- The name of the token that stands for a terminal without a name of its own. -/
def tokenName : Terminal → String
  | .literal text => "'" ++ text ++ "'"
  | .pattern p => "`" ++ p ++ "`"

def regex : Terminal → Except Regex.PatternError Regex
  | .literal text => .ok (.literal (Text.bytes text))
  | .pattern p => Regex.parse p

end Terminal

namespace Expr

mutual

/-- The names in an expression, from left to right. -/
def names : Expr → List String
  | .name n => [n]
  | .terminal _ => []
  | .sequence items => allNames items
  | .choice items => allNames items
  | .repetition e _ _ => e.names
  | .lookahead e _ => e.names
  | .discard e => e.names
  | .splice e => e.names

def allNames : List Expr → List String
  | [] => []
  | e :: rest => e.names ++ allNames rest

end

mutual

/-- The terminals in an expression, from left to right. -/
def terminals : Expr → List Terminal
  | .name _ => []
  | .terminal t => [t]
  | .sequence items => allTerminals items
  | .choice items => allTerminals items
  | .repetition e _ _ => e.terminals
  | .lookahead e _ => e.terminals
  | .discard e => e.terminals
  | .splice e => e.terminals

def allTerminals : List Expr → List Terminal
  | [] => []
  | e :: rest => e.terminals ++ allTerminals rest

end

def terminal? : Expr → Option Terminal
  | .terminal t => some t
  | _ => none

/-- What the body of a token is made of: a terminal, or terminals to choose from. -/
def tokenBody? : Expr → Option (List Terminal)
  | .terminal t => some [t]
  | .choice items => items.mapM terminal?
  | _ => none

end Expr

/-- Upper-case letters, digits and underscores, with a letter first. -/
def isTokenName (name : String) : Bool :=
  name.toList.head?.any Char.isUpper &&
    name.toList.all fun c => c.isUpper || c.isDigit || c = '_'

namespace Production

/-- The terminals of a production that declares a token. -/
def token? (p : Production) : Option (List Terminal) :=
  if isTokenName p.name then p.body.tokenBody? else none

def isToken (p : Production) : Bool := p.token?.isSome

end Production

end Seedling.Ebnf
