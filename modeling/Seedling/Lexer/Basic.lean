import Seedling.Lexer.Token
import Seedling.Regex.Automaton
import Seedling.Regex.Pattern
import Seedling.Source.Lines

/-!
Lexers. The expressions of all rules are compiled into one automaton whose states carry the names of
the rules; the longest match gives the next token, and of two rules that match it the one declared
first. A runner takes one token after the other; it remembers the position and the bytes that are
left.
-/

namespace Seedling

structure LexError where
  position : Source.Position
  /-- The byte that was met, `none` at the end of the input. -/
  found : Option UInt8
deriving DecidableEq

namespace LexError

def message (e : LexError) : String :=
  "lexer error at " ++ e.position.describe ++ ": unexpected " ++
    match e.found with
    | none => "end of input"
    | some b =>
        if 0x20 ≤ b && b ≤ 0x7e then "'" ++ Regex.byteChar b ++ "'" else "byte 0x" ++ Text.hexByte b

def report (e : LexError) (text : String) : String :=
  e.message ++ "\n" ++ Source.excerpt (Text.bytes text) e.position.offset 1

end LexError

structure Lexer where
  recognizer : Automaton.Recognizer
  /-- The names of the rules, in the order of their declaration. -/
  names : List String
  ignored : List String

namespace Lexer

def ofRules (rules : List (Regex × String)) (ignored : List String) : Lexer where
  recognizer := .ofDfa (Automaton.determinize (Regex.compileTagged rules)
    (some (rules.map Prod.snd))).minimized
  names := rules.map Prod.snd
  ignored := ignored

/-- What a rule is declared by. -/
inductive RuleSource where
  | pattern (text : String)
  | expression (r : Regex)

def RuleSource.regex : RuleSource → Except Regex.PatternError Regex
  | .pattern text => Regex.parse text
  | .expression r => .ok r

/-- A lexer from named rules; the first pattern that cannot be read is the error. -/
def ofSources (rules : List (String × RuleSource)) (ignored : List String) :
    Except Regex.PatternError Lexer := do
  let rules ← rules.mapM fun (name, source) => source.regex.map (·, name)
  return ofRules rules ignored

def isIgnored (lexer : Lexer) (name : String) : Bool := lexer.ignored.contains name

/-- The error for `rest`, which starts at `position`, when scanning stopped after `n` bytes. -/
def errorAt (position : Source.Position) (rest : List UInt8) (n : Nat) : LexError :=
  ⟨position.advance (rest.take n), rest[n]?⟩

/-- The token that starts at `position` with byte `b`, and how many bytes it takes after that
one. An empty match is no token. -/
def step (lexer : Lexer) (position : Source.Position) (b : UInt8) (rest : List UInt8) :
    Except LexError (Token × Nat) :=
  match lexer.recognizer.longestMatch (b :: rest) 0 with
  | .error i => .error (errorAt position (b :: rest) i)
  | .ok m =>
      if m.isEmpty then .error (errorAt position (b :: rest) 0)
      else .ok (⟨lexer.recognizer.stateName m.state,
        Text.decode ((b :: rest).take m.stop), position⟩, m.stop - 1)

structure Runner where
  lexer : Lexer
  text : List UInt8
  /-- Whether the end of the input is a token. -/
  eof : Bool
  position : Source.Position
  rest : List UInt8
  done : Bool

def runner (lexer : Lexer) (text : String) (eof : Bool) : Runner where
  lexer := lexer
  text := Text.bytes text
  eof := eof
  position := .start
  rest := Text.bytes text
  done := false

namespace Runner

def restart (r : Runner) : Runner := { r with position := .start, rest := r.text, done := false }

/-- The next token that is not ignored, from the given place on. -/
def nextFrom (r : Runner) (position : Source.Position) :
    List UInt8 → Option (Except LexError Token) × Runner
  | [] =>
      (if r.eof then some (.ok (.eof position)) else none,
        { r with position := position, rest := [], done := true })
  | b :: rest =>
      match r.lexer.step position b rest with
      | .error e =>
          (some (.error e), { r with position := position, rest := b :: rest, done := true })
      | .ok (token, n) =>
          let after := position.advance (b :: rest.take n)
          if r.lexer.isIgnored token.name then nextFrom r after (rest.drop n)
          else (some (.ok token), { r with position := after, rest := rest.drop n })
termination_by bs => bs.length
decreasing_by simp only [List.length_drop, List.length_cons]; omega

/-- The next token or error. Nothing follows an error or the end. -/
def next (r : Runner) : Option (Except LexError Token) × Runner :=
  if r.done then (none, r) else r.nextFrom r.position r.rest

/-- All that is left from the given place on, the error that ends it included. -/
def drainFrom (r : Runner) (position : Source.Position) :
    List UInt8 → List (Except LexError Token) × Runner
  | [] =>
      (if r.eof then [.ok (.eof position)] else [],
        { r with position := position, rest := [], done := true })
  | b :: rest =>
      match r.lexer.step position b rest with
      | .error e => ([.error e], { r with position := position, rest := b :: rest, done := true })
      | .ok (token, n) =>
          let (items, r') := drainFrom r (position.advance (b :: rest.take n)) (rest.drop n)
          (if r.lexer.isIgnored token.name then items else .ok token :: items, r')
termination_by bs => bs.length
decreasing_by simp only [List.length_drop, List.length_cons]; omega

def drain (r : Runner) : List (Except LexError Token) × Runner :=
  if r.done then ([], r) else r.drainFrom r.position r.rest

end Runner

/-- The tokens of a text, or the first error. -/
def tokenize (lexer : Lexer) (text : String) (eof : Bool) : Except LexError (List Token) :=
  (lexer.runner text eof).drain.1.mapM id

end Lexer

end Seedling
