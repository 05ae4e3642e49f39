import Seedling.Ebnf.Reader
import Seedling.Error

/-!
From productions to a grammar and its lexer.

Without tokens the grammar matches text. With tokens the terminals inside rules become tokens
too: a literal that is the whole body of a declared token is that token, any other terminal is a
token named after itself. The lexer tries those first, in the order of their appearance, and
then the declared ones, so that a keyword comes before the names it looks like.
-/

namespace Seedling.Ebnf

/-- The tokens of a grammar. -/
structure Vocabulary where
  /-- The names that stand for tokens: those declared, and those in upper case with no
  production. -/
  tokens : SortedSet String
  /-- Literals that are the whole body of a declared token, with its name; the first one counts. -/
  literals : List (String × String)

namespace Vocabulary

def ofProductions (ps : List Production) : Vocabulary where
  tokens := .ofList
    ((ps.filter Production.isToken).map Production.name ++
      (ps.filter (!·.isToken)).flatMap fun p =>
        p.body.names.filter fun n => isTokenName n && !(ps.any fun q => q.name = n))
  literals := (ps.filter Production.isToken).filterMap fun p =>
    match p.body with
    | .terminal (.literal text) => some (text, p.name)
    | _ => none

def mode (v : Vocabulary) : Mode := if v.tokens.isEmpty then .text else .tokens

def declared? (v : Vocabulary) : Terminal → Option String
  | .literal text => v.literals.lookup text
  | .pattern _ => none

def terminalAtom (v : Vocabulary) (t : Terminal) : Atom :=
  match v.mode, t with
  | .tokens, t => .token ((v.declared? t).getD t.tokenName)
  | .text, .literal text => .literal text
  | .text, .pattern p => .pattern p

mutual

/-- Adds the atoms of an expression, children first. -/
def lower (v : Vocabulary) : Expr → Builder → AtomId × Builder
  | .name n, b => if v.tokens.contains n then b.addAtom (.token n) else b.addRef n
  | .terminal t, b => b.addAtom (v.terminalAtom t)
  | .sequence items, b =>
      let (ids, b) := lowerAll v items b
      b.addAtom (.sequence ids)
  | .choice items, b =>
      let (ids, b) := lowerAll v items b
      b.addAtom (.choice ids)
  | .repetition e min max, b =>
      let (id, b) := lower v e b
      b.addAtom (.repetition id min max)
  | .lookahead e positive, b =>
      let (id, b) := lower v e b
      b.addAtom (.lookahead id positive)
  | .discard e, b =>
      let (id, b) := lower v e b
      b.addAtom (.discard id)
  | .splice e, b =>
      let (id, b) := lower v e b
      b.addAtom (.splice id)

def lowerAll (v : Vocabulary) : List Expr → Builder → List AtomId × Builder
  | [], b => ([], b)
  | e :: rest, b =>
      let (id, b) := lower v e b
      let (ids, b) := lowerAll v rest b
      (id :: ids, b)

end

def lowerRule (v : Vocabulary) (b : Builder) (p : Production) : Builder :=
  let (body, b) := v.lower p.body b
  b.define p.name body

/-- The terminals of the rules that no declared token covers, each once, in order of appearance. -/
def anonymous (v : Vocabulary) (rules : List Production) : List Terminal :=
  ((rules.flatMap fun p => p.body.terminals).filter fun t => (v.declared? t).isNone).foldl
    (fun seen t => if seen.any fun s => s.tokenName = t.tokenName then seen else seen ++ [t]) []

end Vocabulary

def ignoredName : String := "IGNORE"

def tokenRegex (p : Production) : Except Regex.PatternError Regex :=
  match p.body with
  | .choice _ => do return .alternatives (← (p.token?.getD []).mapM Terminal.regex)
  | .terminal t => t.regex
  | _ => .ok .nothing

/-- The rules of the lexer: terminals of rules first, declared tokens after them. -/
def lexerRules (v : Vocabulary) (ps : List Production) :
    Except Regex.PatternError (List (Regex × String)) := do
  let anonymous ← (v.anonymous (ps.filter (!·.isToken))).mapM fun t => do
    return (← t.regex, t.tokenName)
  let declared ← (ps.filter Production.isToken).mapM fun p => do
    return (← tokenRegex p, p.name)
  return anonymous ++ declared

def lexerOf (v : Vocabulary) (ps : List Production) : Except Regex.PatternError (Option Lexer) := do
  match v.mode with
  | .text => return none
  | .tokens =>
      let rules ← lexerRules v ps
      return if rules.isEmpty then none
        else some (.ofRules rules (if rules.any (·.2 = ignoredName) then [ignoredName] else []))

/-- The first name that has two productions. -/
def duplicate? (seen : List String) : List Production → Option String
  | [] => none
  | p :: rest => if p.name ∈ seen then some p.name else duplicate? (p.name :: seen) rest

/-- A grammar with the lexer for its tokens, if it has any. -/
structure Language where
  grammar : Grammar
  lexer : Option Lexer

namespace Language

def ofProductions (ps : List Production) : Except GrammarError Language := do
  if let some name := duplicate? [] ps then throw (.duplicateRule name)
  let v := Vocabulary.ofProductions ps
  let rules := ps.filter (!·.isToken)
  if rules.isEmpty then throw .empty
  match lexerOf v ps with
  | .error e => throw (.invalidPattern e)
  | .ok lexer => return ⟨← (rules.foldl v.lowerRule .empty).build, lexer⟩

/-- The language that a text describes. -/
def ofText (text : String) : Except GrammarError Language := do
  ofProductions (← productions text)

/-- Parses a text, through the lexer if there is one. The end of the input is a token if the grammar
speaks of it. -/
def parse (l : Language) (text : String) : Except Error ParseTree :=
  match l.lexer with
  | some lexer =>
      match lexer.tokenize text (l.grammar.referencesToken Token.eofName) with
      | .error e => .error (.lexer e)
      | .ok tokens => (l.grammar.parse (.tokens tokens)).mapError .parse
  | none => (l.grammar.parse (.text text)).mapError .parse

def parseTokens (l : Language) (tokens : List Token) : Except ParseError ParseTree :=
  l.grammar.parse (.tokens tokens)

end Language

end Seedling.Ebnf
