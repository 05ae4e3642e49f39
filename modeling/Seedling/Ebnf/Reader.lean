import Seedling.Ebnf.Expr
import Seedling.Grammar.Builder
import Seedling.Parse.Parser

/-!
Reading grammar text. The text is parsed by a grammar of grammars, and its productions are read
off the tree.

    # comments run to the end of the line
    expr:   expr '+' term | term;
    term:   '(' <expr> ')' | NUM;
    NUM:    `[0-9]+`;
    IGNORE: `[ \t\n]+`;

An item may start with `!` or `&`, which look ahead, and end with `*`, `+` or `?`. Parentheses
group, square brackets drop what they match, and angle brackets put what they match in the place
of the rule's node.
-/

namespace Seedling.Ebnf

open ParsingExpr

def blank : ParsingExpr := (ref "ws").discard

def mark (s : String) : ParsingExpr := (text s).discard

/-- Alternatives between two brackets. -/
def bracketed (opening closing : String) : ParsingExpr :=
  (((mark opening).andThen blank).andThen (ref "alternatives")).andThen (mark closing)

def metaGrammar : Except GrammarError Grammar :=
  Builder.empty
    |>.rule "grammar" (blank.andThen (ref "production").many1)
    |>.rule "production"
      ((((((ref "name").andThen blank).andThen (mark ":")).andThen blank).andThen
        (ref "alternatives")).andThen (mark ";") |>.andThen blank)
    |>.rule "alternatives"
      ((ref "sequence").andThen (((mark "|").andThen blank).andThen (ref "sequence")).many)
    |>.rule "sequence" (ref "item").many
    |>.rule "item"
      ((((ref "prefix").optional.andThen (ref "primary")).andThen (ref "suffix").optional).andThen
        blank)
    |>.rule "prefix" (pattern "[!&]")
    |>.rule "suffix" (pattern "[*+?]")
    |>.rule "primary"
      ((((((ref "group").orElse (ref "discarded")).orElse (ref "spliced")).orElse
        (ref "name")).orElse (ref "literal")).orElse (ref "regex")).splice
    |>.rule "group" (bracketed "(" ")")
    |>.rule "discarded" (bracketed "[" "]")
    |>.rule "spliced" (bracketed "<" ">")
    |>.rule "name" (pattern "[A-Za-z_][A-Za-z0-9_]*")
    |>.rule "literal" (pattern "'([^'\\\\]|\\\\.)*'|\"([^\"\\\\]|\\\\.)*\"")
    |>.rule "regex" (pattern "`[^`]*`")
    |>.rule "ws" (pattern "([ \\t\\r\\n]|#[^\\n]*)*")
    |>.build

def escaped : Char → Char
  | 'n' => '\n'
  | 't' => '\t'
  | 'r' => '\r'
  | '0' => Char.ofNat 0
  | c => c

def resolveEscapes : List Char → List Char
  | '\\' :: c :: rest => escaped c :: resolveEscapes rest
  | c :: rest => c :: resolveEscapes rest
  | [] => []

def unquote (quoted : String) : String :=
  String.ofList (resolveEscapes quoted.toList.tail.dropLast)

def unfence (fenced : String) : String :=
  String.ofList
    (((fenced.toList.dropWhile (· = '`')).reverse.dropWhile (· = '`')).reverse)

/-- A list of one is that one. -/
def joined (join : List Expr → Expr) : List Expr → Expr
  | [e] => e
  | items => join items

/-- An operand with the sign behind it and the sign before it. -/
def modified (before behind : Option String) (e : Expr) : Expr :=
  let e := match behind with
    | some "*" => .repetition e 0 none
    | some "+" => .repetition e 1 none
    | some "?" => .repetition e 0 (some 1)
    | _ => e
  match before with
  | some "&" => .lookahead e true
  | some "!" => .lookahead e false
  | _ => e

def isSign (tree : ParseTree) : Bool := tree.symbol = "prefix" || tree.symbol = "suffix"

def textOfChild (children : List ParseTree) (symbol : String) : Option String :=
  (children.find? fun c => c.symbol = symbol).map ParseTree.text

mutual

def readAlternatives : ParseTree → Expr
  | .node _ children => joined .choice (readSequences children)
  | .leaf .. => .choice []

def readSequences : List ParseTree → List Expr
  | [] => []
  | tree :: rest => readSequence tree :: readSequences rest

def readSequence : ParseTree → Expr
  | .node _ children => joined .sequence (readItems children)
  | .leaf .. => .sequence []

def readItems : List ParseTree → List Expr
  | [] => []
  | tree :: rest => readItem tree :: readItems rest

def readItem : ParseTree → Expr
  | .node _ children =>
      modified (textOfChild children "prefix") (textOfChild children "suffix")
        (readOperand children)
  | .leaf .. => .sequence []

/-- The child of an item that is no sign. -/
def readOperand : List ParseTree → Expr
  | [] => .sequence []
  | tree :: rest => if isSign tree then readOperand rest else readPrimary tree

def readPrimary : ParseTree → Expr
  | .node symbol children =>
      if symbol = "discarded" then .discard (readInner children)
      else if symbol = "spliced" then .splice (readInner children)
      else if symbol = "name" then .name (ParseTree.node symbol children).text
      else if symbol = "literal" then
        .terminal (.literal (unquote (ParseTree.node symbol children).text))
      else if symbol = "regex" then
        .terminal (.pattern (unfence (ParseTree.node symbol children).text))
      else readInner children
  | .leaf .. => .sequence []

def readInner : List ParseTree → Expr
  | [] => .sequence []
  | tree :: rest => if tree.symbol = "alternatives" then readAlternatives tree else readInner rest

end

def readProduction (tree : ParseTree) : Option Production :=
  match tree.children with
  | [name, body] => some ⟨name.text, readAlternatives body⟩
  | _ => none

def readProductions (tree : ParseTree) : List Production :=
  tree.children.filterMap readProduction

def productions (text : String) : Except GrammarError (List Production) := do
  match (← metaGrammar).parse (.text text) with
  | .ok tree => return readProductions tree
  | .error e => throw (.malformed (e.location?.getD .start) e.expected.toList)

end Seedling.Ebnf
