import Seedling.Automaton.Diagram
import Seedling.Source.Document
import Seedling.Tree.Basic

/-!
The written forms of parse trees: expressions in brackets, indented lines, Graphviz graphs and
documents.
-/

namespace Seedling.ParseTree

mutual

/-- A node as its symbol and children in brackets, a leaf as its text in quotes. -/
def sexpr : ParseTree → String
  | .leaf _ text _ => Text.quoted text
  | .node symbol children => "(" ++ symbol ++ forestSexpr children ++ ")"

def forestSexpr : List ParseTree → String
  | [] => ""
  | tree :: rest => " " ++ tree.sexpr ++ forestSexpr rest

end

def repeated (s : String) (n : Nat) : String := String.join (List.replicate n s)

mutual

/-- One line for each node and leaf, indented by depth; what lies deeper than `limit` becomes three
dots. -/
def lines (indent : String) (limit : Option Nat) (depth : Nat) : ParseTree → String
  | .leaf symbol text position =>
      if limit.any (· < depth) then repeated indent depth ++ "...\n"
      else repeated indent depth ++ symbol ++ " " ++ Text.quoted text ++
        s!" @ {position.line}:{position.column}\n"
  | .node symbol children =>
      if limit.any (· < depth) then repeated indent depth ++ "...\n"
      else repeated indent depth ++ symbol ++ "\n" ++ forestLines indent limit (depth + 1) children

def forestLines (indent : String) (limit : Option Nat) (depth : Nat) : List ParseTree → String
  | [] => ""
  | tree :: rest => lines indent limit depth tree ++ forestLines indent limit depth rest

end

/-- The indented form of a whole tree. -/
def print (tree : ParseTree) (indent : String) (limit : Option Nat) : String :=
  tree.lines indent limit 0

mutual

/-- The statements for a tree whose root has number `id`, and the next free number. -/
def dotFrom (id : Nat) : ParseTree → String × Nat
  | .leaf symbol text _ =>
      (s!"  n{id} [shape=box, label=\"" ++ Automaton.dotEscape symbol ++ "\\n" ++
        Automaton.dotEscape text ++ "\"];\n", id + 1)
  | .node symbol children =>
      let (below, next) := forestDotFrom id (id + 1) children
      (s!"  n{id} [shape=ellipse, label=\"" ++ Automaton.dotEscape symbol ++
        "\"];\n" ++ below, next)

/-- The same for the children of the node `parent`, with an edge to each after its statements. -/
def forestDotFrom (parent id : Nat) : List ParseTree → String × Nat
  | [] => ("", id)
  | tree :: rest =>
      let (this, next) := dotFrom id tree
      let (others, next) := forestDotFrom parent next rest
      (this ++ s!"  n{parent} -> n{id};\n" ++ others, next)

end

def toDot (tree : ParseTree) : String :=
  "digraph parse_tree \x7b\n" ++ (tree.dotFrom 0).1 ++ "\x7d\n"

mutual

def document : ParseTree → Json
  | .leaf symbol text position =>
      .record [("Leaf", .record
        [("symbol", .ofString symbol), ("text", .ofString text),
         ("position", position.document)])]
  | .node symbol children =>
      .record [("Nonterminal", .record
        [("symbol", .ofString symbol), ("children", .array (forestDocument children))])]

def forestDocument : List ParseTree → List Json
  | [] => []
  | tree :: rest => tree.document :: forestDocument rest

end

/-- Reads a tree with room for so many brackets inside each other. A level takes three: a case,
its fields, and the children or the position are between brackets of their own. -/
def ofDocument : Nat → Json → Option ParseTree
  | room + 3, j => do
      let (name, content) ← Json.asCase j
      if name = "Nonterminal" then
        match ← Json.allFields ["symbol", "children"] content with
        | [symbol, children] =>
            return .node (← Json.asString symbol) (← Json.asList (ofDocument room) children)
        | _ => none
      else if name = "Leaf" then
        match ← Json.allFields ["symbol", "text", "position"] content with
        | [symbol, text, position] =>
            return .leaf (← Json.asString symbol) (← Json.asString text)
              (← Source.Position.ofDocument position)
        | _ => none
      else none
  | _, _ => none

def toJson (tree : ParseTree) : String := tree.document.text

def ofJson (s : String) : Option ParseTree := (Json.read s).bind (ofDocument Json.maxBrackets)

end Seedling.ParseTree
