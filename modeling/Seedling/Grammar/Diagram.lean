import Seedling.Automaton.Diagram
import Seedling.Grammar.Basic

/-!
Grammars as graphs, for Mermaid and for Graphviz: a node for each rule and each atom, an edge from a
rule to its body and from an atom to its children.
-/

namespace Seedling.Grammar

def atomTitle (g : Grammar) : Atom → String
  | .rule rule => "rule(" ++ g.ruleName rule ++ ")"
  | .literal text => "str(" ++ Text.quoted text ++ ")"
  | .pattern pattern => "re(" ++ Text.quoted pattern ++ ")"
  | .token name => "tok(" ++ name ++ ")"
  | .sequence atoms => s!"seq({atoms.length})"
  | .choice atoms => s!"alt({atoms.length})"
  | .repetition _ min max =>
      s!"rep({min}.." ++ ((max.map toString).getD "*") ++ ")"
  | .lookahead _ true => "lookahead(&)"
  | .lookahead _ false => "lookahead(!)"
  | .discard _ => "discard"
  | .splice _ => "splice"

/-- Quotes inside a Mermaid label have a name. -/
def mermaidEscape (s : String) : String :=
  String.join (s.toList.map fun c => if c = '"' then "#quot;" else String.singleton c)

def toMermaid (g : Grammar) : String :=
  let rules := g.rules.toList.zipIdx.map fun (r, i) =>
    s!"  r{i}([\"" ++ r.name ++ s!"\"])\n  r{i} --> a{r.body}\n"
  let atoms := g.atoms.toList.zipIdx.map fun (atom, i) =>
    let target := match atom with
      | .rule rule => s!"  a{i} -.-> r{rule}\n"
      | _ => ""
    s!"  a{i}[\"" ++ mermaidEscape (g.atomTitle atom) ++ "\"]\n" ++ target ++
      String.join (atom.children.map fun c => s!"  a{i} --> a{c}\n")
  "graph TD\n" ++ String.join rules ++ String.join atoms

def toDot (g : Grammar) : String :=
  let rules := g.rules.toList.zipIdx.map fun (r, i) =>
    s!"  r{i} [shape=ellipse, label=\"" ++ Automaton.dotEscape r.name ++
      s!"\"];\n  r{i} -> a{r.body};\n"
  let atoms := g.atoms.toList.zipIdx.map fun (atom, i) =>
    let target := match atom with
      | .rule rule => s!"  a{i} -> r{rule} [style=dashed];\n"
      | _ => ""
    s!"  a{i} [label=\"" ++ Automaton.dotEscape (g.atomTitle atom) ++ "\"];\n" ++ target ++
      String.join (atom.children.map fun c => s!"  a{i} -> a{c};\n")
  "digraph Grammar \x7b\n  rankdir=TB;\n  node [shape=box];\n" ++ String.join rules ++
    String.join atoms ++ s!"  r{g.root} [style=filled, fillcolor=lightblue];\n" ++ "\x7d\n"

end Seedling.Grammar
