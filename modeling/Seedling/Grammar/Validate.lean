import Seedling.Grammar.Error
import Seedling.Grammar.LeftEdge
import Seedling.Regex.Automaton
import Seedling.Regex.Pattern

/-!
From tables to grammars. The tables are checked in a fixed order, so that of several faults
always the same one is reported: rules and root, references, terminal modes, patterns, and last
the left recursion, which needs all the rest to be in order.
-/

namespace Seedling.Grammar

/-- Names must differ and bodies must exist; `seen` are the names before. -/
def checkRules (atomCount : Nat) (seen : List String) : List Rule → Except GrammarError Unit
  | [] => .ok ()
  | rule :: rest =>
      if rule.name ∈ seen then .error (.duplicateRule rule.name)
      else if atomCount ≤ rule.body then
        .error (.invalidReference ("rule '" ++ rule.name ++ "'") rule.body)
      else checkRules atomCount (rule.name :: seen) rest

/-- The children of an atom come before it, and the rule it refers to exists. -/
def checkAtoms (ruleCount id : Nat) : List Atom → Except GrammarError Unit
  | [] => .ok ()
  | atom :: rest =>
      match atom.children.find? (id ≤ ·) with
      | some bad => .error (.invalidReference ("atom " ++ toString id) bad)
      | none =>
          match atom with
          | .rule rule =>
              if ruleCount ≤ rule then .error (.invalidReference ("atom " ++ toString id) rule)
              else checkAtoms ruleCount (id + 1) rest
          | _ => checkAtoms ruleCount (id + 1) rest

/-- The label of the first terminal of a mode. -/
def firstTerminal (mode : Mode) (atoms : List Atom) : Option String :=
  atoms.findSome? fun a => if a.mode? = some mode then a.label? else none

def checkModes (atoms : List Atom) : Except GrammarError Unit :=
  match firstTerminal .text atoms, firstTerminal .tokens atoms with
  | some textTerminal, some token => .error (.mixedModes textTerminal token)
  | _, _ => .ok ()

def compileMatcher : Atom → Except GrammarError (Option Automaton.Recognizer)
  | .pattern pattern =>
      match Regex.parse pattern with
      | .ok r => .ok (some r.recognizer)
      | .error e => .error (.invalidPattern e)
  | _ => .ok none

/-- All checks but the one for left recursion. -/
def assemble (atoms : Array Atom) (rules : Array Rule) (root : RuleId) :
    Except GrammarError Grammar := do
  if rules.isEmpty then throw .empty
  if rules.size ≤ root then throw (.invalidReference "root" root)
  checkRules atoms.size [] rules.toList
  checkAtoms rules.size 0 atoms.toList
  checkModes atoms.toList
  let matchers ← atoms.toList.mapM compileMatcher
  return ⟨atoms, rules, root, matchers.toArray⟩

/-- The grammar that the tables describe, if they are in order. -/
def ofParts (atoms : Array Atom) (rules : Array Rule) (root : RuleId) :
    Except GrammarError Grammar := do
  let g ← assemble atoms rules root
  match g.leftEdge.unresolvable with
  | some cycle => throw (.unresolvableLeftRecursion cycle)
  | none => return g

end Seedling.Grammar
