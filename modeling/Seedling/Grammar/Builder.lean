import Seedling.Grammar.Validate

/-!
Building grammars from expressions. Rules refer to each other by name, in any order; the references
are resolved when everything has been defined. A chain of `andThen` becomes one sequence and a chain
of `orElse` one choice, unless it is sealed.
-/

namespace Seedling

inductive ParsingExpr where
  | text (text : String)
  | pattern (pattern : String)
  | token (name : String)
  | ref (rule : String)
  | andThen (a b : ParsingExpr)
  | orElse (a b : ParsingExpr)
  | sequence (items : List ParsingExpr)
  | choice (items : List ParsingExpr)
  | repetition (a : ParsingExpr) (min : Nat) (max : Option Nat)
  | lookahead (a : ParsingExpr) (positive : Bool)
  | discard (a : ParsingExpr)
  | splice (a : ParsingExpr)
  /-- Keeps its content apart from a chain around it. -/
  | sealed (a : ParsingExpr)

namespace ParsingExpr

/-- Any single byte. -/
def any : ParsingExpr := .pattern "."

def many (a : ParsingExpr) : ParsingExpr := .repetition a 0 none

def many1 (a : ParsingExpr) : ParsingExpr := .repetition a 1 none

def optional (a : ParsingExpr) : ParsingExpr := .repetition a 0 (some 1)

def ahead (a : ParsingExpr) : ParsingExpr := .lookahead a true

def notAhead (a : ParsingExpr) : ParsingExpr := .lookahead a false

end ParsingExpr

structure Builder where
  atoms : Array Atom
  rules : Array Rule
  /-- Atoms that stand for a rule still to be found by name. -/
  pending : Array (AtomId × String)
  start : Option String

namespace Builder

def empty : Builder := ⟨#[], #[], #[], none⟩

instance : Inhabited Builder := ⟨empty⟩

/-- Adds an atom; its number is the old number of atoms. -/
def addAtom (b : Builder) (atom : Atom) : AtomId × Builder :=
  (b.atoms.size, { b with atoms := b.atoms.push atom })

/-- Until it is resolved, a reference points outside every table. -/
def unresolved : RuleId := UInt64.size - 1

def addRef (b : Builder) (rule : String) : AtomId × Builder :=
  let (id, b) := b.addAtom (.rule unresolved)
  (id, { b with pending := b.pending.push (id, rule) })

/-- What an expression is part of. -/
inductive Context where
  | alone
  | inSequence
  | inChoice
deriving DecidableEq

mutual

/-- Adds the atoms of an expression, children first. The result is the atom of the expression,
or the atoms of its items when it continues the chain around it. -/
def add (context : Context) : ParsingExpr → Builder → List AtomId × Builder
  | .text text, b => single (b.addAtom (.literal text))
  | .pattern pattern, b => single (b.addAtom (.pattern pattern))
  | .token name, b => single (b.addAtom (.token name))
  | .ref rule, b => single (b.addRef rule)
  | .andThen x y, b =>
      let (xs, b) := add .inSequence x b
      let (ys, b) := add .inSequence y b
      if context = .inSequence then (xs ++ ys, b) else single (b.addAtom (.sequence (xs ++ ys)))
  | .orElse x y, b =>
      let (xs, b) := add .inChoice x b
      let (ys, b) := add .inChoice y b
      if context = .inChoice then (xs ++ ys, b) else single (b.addAtom (.choice (xs ++ ys)))
  | .sequence items, b =>
      let (ids, b) := addItems items b
      single (b.addAtom (.sequence ids))
  | .choice items, b =>
      let (ids, b) := addItems items b
      single (b.addAtom (.choice ids))
  | .repetition x min max, b =>
      let (ids, b) := add .alone x b
      single (b.addAtom (.repetition (ids.headD 0) min max))
  | .lookahead x positive, b =>
      let (ids, b) := add .alone x b
      single (b.addAtom (.lookahead (ids.headD 0) positive))
  | .discard x, b =>
      let (ids, b) := add .alone x b
      single (b.addAtom (.discard (ids.headD 0)))
  | .splice x, b =>
      let (ids, b) := add .alone x b
      single (b.addAtom (.splice (ids.headD 0)))
  | .sealed x, b => add .alone x b
where
  single (r : AtomId × Builder) : List AtomId × Builder := ([r.1], r.2)

def addItems : List ParsingExpr → Builder → List AtomId × Builder
  | [], b => ([], b)
  | x :: rest, b =>
      let (ids, b) := add .alone x b
      let (others, b) := addItems rest b
      (ids ++ others, b)

end

def addExpr (b : Builder) (x : ParsingExpr) : AtomId × Builder :=
  let (ids, b) := add .alone x b
  (ids.headD 0, b)

def define (b : Builder) (name : String) (body : AtomId) : Builder :=
  { b with rules := b.rules.push ⟨name, body⟩ }

def rule (b : Builder) (name : String) (x : ParsingExpr) : Builder :=
  let (body, b) := b.addExpr x
  b.define name body

def hasRule (b : Builder) (name : String) : Bool := b.rules.any fun r => r.name = name

/-- The first name that is defined again. -/
def duplicate? (seen : List String) : List Rule → Option String
  | [] => none
  | r :: rest => if r.name ∈ seen then some r.name else duplicate? (r.name :: seen) rest

def find (b : Builder) (name : String) : Except GrammarError RuleId :=
  match b.rules.findIdx? fun r => r.name = name with
  | some id => .ok id
  | none => .error (.undefinedRule name)

/-- Points every pending reference at its rule. -/
def resolve (b : Builder) : Except GrammarError (Array Atom) :=
  b.pending.toList.foldlM
    (fun atoms (id, name) => do return atoms.setIfInBounds id (.rule (← b.find name))) b.atoms

/-- The grammar that was built. Without a chosen start the first rule is it. -/
def build (b : Builder) : Except GrammarError Grammar := do
  if let some name := duplicate? [] b.rules.toList then throw (.duplicateRule name)
  let atoms ← b.resolve
  let root ← match b.start with
    | some name => b.find name
    | none => pure 0
  Grammar.ofParts atoms b.rules root

end Builder

end Seedling
