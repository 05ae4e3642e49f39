import Seedling.Grammar.Validate
import Seedling.Json.Decode

/-!
Grammars as documents: the table of atoms, the table of rules and the number of the start rule.
What is read is validated like any other tables.
-/

namespace Seedling

namespace Atom

def document : Atom → Json
  | .rule r => .record [("Rule", .record [("rule", .ofNat r)])]
  | .literal text => .record [("Literal", .record [("text", .ofString text)])]
  | .pattern p => .record [("Pattern", .record [("pattern", .ofString p)])]
  | .token name => .record [("Token", .record [("name", .ofString name)])]
  | .sequence atoms => .record [("Sequence", .record [("atoms", .ofNats atoms)])]
  | .choice atoms => .record [("Choice", .record [("atoms", .ofNats atoms)])]
  | .repetition atom min max =>
      .record [("Repetition", .record
        [("atom", .ofNat atom), ("min", .ofNat min), ("max", .ofOption .ofNat max)])]
  | .lookahead atom positive =>
      .record [("Lookahead", .record [("atom", .ofNat atom), ("positive", .bool positive)])]
  | .discard atom => .record [("Discard", .record [("atom", .ofNat atom)])]
  | .splice atom => .record [("Splice", .record [("atom", .ofNat atom)])]

/-- The only field of a case. -/
def oneField {α : Type} (name : String) (f : Json → Option α) (content : Json) : Option α := do
  match ← Json.allFields [name] content with
  | [value] => f value
  | _ => none

/-- Reads an atom. The upper bound of a repetition may be missing. -/
def ofDocument (j : Json) : Option Atom := do
  let (name, content) ← Json.asCase j
  match name with
  | "Rule" => (oneField "rule" Json.asNat content).map .rule
  | "Literal" => (oneField "text" Json.asString content).map .literal
  | "Pattern" => (oneField "pattern" Json.asString content).map .pattern
  | "Token" => (oneField "name" Json.asString content).map .token
  | "Sequence" => (oneField "atoms" (Json.asList Json.asNat) content).map .sequence
  | "Choice" => (oneField "atoms" (Json.asList Json.asNat) content).map .choice
  | "Repetition" =>
      match ← Json.fields ["atom", "min", "max"] content with
      | [some atom, some min, max] =>
          return .repetition (← Json.asNat atom) (← Json.asNat min)
            (← Json.asOption Json.asNat (max.getD .null))
      | _ => none
  | "Lookahead" =>
      match ← Json.allFields ["atom", "positive"] content with
      | [atom, positive] => return .lookahead (← Json.asNat atom) (← Json.asBool positive)
      | _ => none
  | "Discard" => (oneField "atom" Json.asNat content).map .discard
  | "Splice" => (oneField "atom" Json.asNat content).map .splice
  | _ => none

end Atom

namespace Rule

def document (r : Rule) : Json :=
  .record [("name", .ofString r.name), ("body", .ofNat r.body)]

def ofDocument (j : Json) : Option Rule := do
  match ← Json.allFields ["name", "body"] j with
  | [name, body] => return ⟨← Json.asString name, ← Json.asNat body⟩
  | _ => none

end Rule

namespace Grammar

def document (g : Grammar) : Json :=
  .record
    [("atoms", .array (g.atoms.toList.map Atom.document)),
     ("rules", .array (g.rules.toList.map Rule.document)),
     ("root", .ofNat g.root)]

def toJson (g : Grammar) : String := g.document.text

def readParts (j : Json) : Option (Array Atom × Array Rule × RuleId) := do
  match ← Json.allFields ["atoms", "rules", "root"] j with
  | [atoms, rules, root] =>
      return ((← Json.asList Atom.ofDocument atoms).toArray,
        (← Json.asList Rule.ofDocument rules).toArray, ← Json.asNat root)
  | _ => none

def ofJson (s : String) : Except GrammarError Grammar :=
  match (Json.read s).bind readParts with
  | none => .error .unreadable
  | some (atoms, rules, root) => ofParts atoms rules root

end Grammar

end Seedling
