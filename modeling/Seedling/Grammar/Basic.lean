import Seedling.Automaton.Recognizer
import Seedling.Lexer.Token

/-!
Grammars as tables. Parsing expressions ("atoms") refer to each other by number, rules to their
bodies, and references to rules are the only way to recur: an atom's children have smaller
numbers than the atom itself.
-/

namespace Seedling

abbrev AtomId := Nat

abbrev RuleId := Nat

/-- What the terminals of a grammar match. -/
inductive Mode where
  | text
  | tokens
deriving DecidableEq

def Mode.name : Mode → String
  | .text => "text"
  | .tokens => "tokens"

inductive Atom where
  | rule (rule : RuleId)
  | literal (text : String)
  /-- The longest match of a regular expression. -/
  | pattern (pattern : String)
  | token (name : String)
  | sequence (atoms : List AtomId)
  /-- The first alternative that matches. -/
  | choice (atoms : List AtomId)
  /-- As many matches as there are, up to `max`. -/
  | repetition (atom : AtomId) (min : Nat) (max : Option Nat)
  | lookahead (atom : AtomId) (positive : Bool)
  /-- Matches and leaves nothing in the tree. -/
  | discard (atom : AtomId)
  /-- Makes its only child the result of the rule. -/
  | splice (atom : AtomId)
deriving DecidableEq

namespace Atom

/-- The atoms an atom is made of; a reference to a rule has none. -/
def children : Atom → List AtomId
  | .sequence atoms => atoms
  | .choice atoms => atoms
  | .repetition atom _ _ => [atom]
  | .lookahead atom _ => [atom]
  | .discard atom => [atom]
  | .splice atom => [atom]
  | .rule _ => []
  | .literal _ => []
  | .pattern _ => []
  | .token _ => []

/-- How a terminal is called in trees and error messages. -/
def label? : Atom → Option String
  | .literal text => some ("'" ++ text ++ "'")
  | .pattern p => some ("`" ++ p ++ "`")
  | .token name => some name
  | _ => none

def mode? : Atom → Option Mode
  | .literal _ => some .text
  | .pattern _ => some .text
  | .token _ => some .tokens
  | _ => none

end Atom

structure Rule where
  name : String
  body : AtomId
deriving DecidableEq

structure Grammar where
  atoms : Array Atom
  rules : Array Rule
  root : RuleId
  /-- For each atom that is a pattern, its recognizer. -/
  matchers : Array (Option Automaton.Recognizer)

namespace Grammar

def label (g : Grammar) (id : AtomId) : String := (g.atoms[id]?.bind Atom.label?).getD ""

def matcher? (g : Grammar) (id : AtomId) : Option Automaton.Recognizer := g.matchers[id]?.join

/-- What the terminals match, `none` when there are no terminals. -/
def mode? (g : Grammar) : Option Mode := g.atoms.toList.findSome? Atom.mode?

def ruleName (g : Grammar) (rule : RuleId) : String := (g.rules[rule]?.map Rule.name).getD ""

def ruleId? (g : Grammar) (name : String) : Option RuleId := g.rules.findIdx? fun r => r.name = name

/-- The choices of a rule's body, or the body itself when it is no choice. -/
def alternatives (g : Grammar) (body : AtomId) : List AtomId :=
  match g.atoms[body]? with
  | some (.choice atoms) => atoms
  | _ => [body]

def referencesToken (g : Grammar) (name : String) : Bool :=
  g.atoms.any fun a => a = .token name

end Grammar

end Seedling
