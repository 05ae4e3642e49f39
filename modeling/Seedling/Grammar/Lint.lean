import Seedling.Grammar.LeftEdge

/-!
Warnings about grammars: what is probably not meant, although it is allowed.
-/

namespace Seedling

namespace Lint

inductive Kind where
  | leftRecursion
  | unusedRule
  | uselessRepetition
  | duplicateAlternative
  | unreachableAlternative
deriving DecidableEq

def Kind.describe : Kind → String
  | .leftRecursion => "left recursion"
  | .unusedRule => "unused rule"
  | .uselessRepetition => "useless repetition"
  | .duplicateAlternative => "duplicate alternative"
  | .unreachableAlternative => "unreachable alternative"

end Lint

/-- What a warning says about a rule. -/
inductive Finding where
  | leftRecursion
  | unusedRule
  | repetitionOfNothing
  | repetitionOfEmpty
  /-- Two alternatives of a choice are the same; both are counted from zero. -/
  | duplicateAlternative (later earlier : Nat)
  /-- Alternatives stand behind one that always succeeds. -/
  | unreachableAlternatives (succeeding behind : Nat)
deriving DecidableEq

namespace Finding

def kind : Finding → Lint.Kind
  | .leftRecursion => .leftRecursion
  | .unusedRule => .unusedRule
  | .repetitionOfNothing => .uselessRepetition
  | .repetitionOfEmpty => .uselessRepetition
  | .duplicateAlternative .. => .duplicateAlternative
  | .unreachableAlternatives .. => .unreachableAlternative

def message : Finding → String
  | .leftRecursion => "rule can call itself before consuming input; parsed by seed growing"
  | .unusedRule => "rule is not reachable from the start rule"
  | .repetitionOfNothing => "repetition with max 0 always matches nothing"
  | .repetitionOfEmpty =>
      "repeated expression can match empty; the loop stops after one empty match"
  | .duplicateAlternative later earlier =>
      s!"alternative {later + 1} repeats alternative {earlier + 1} and never matches"
  | .unreachableAlternatives succeeding behind =>
    s!"alternative {succeeding + 1} always succeeds; {behind} later alternative(s) are never tried"

end Finding

structure Warning where
  rule : String
  finding : Finding
deriving DecidableEq

def Warning.describe (w : Warning) : String :=
  "[rule " ++ w.rule ++ "] " ++ w.finding.kind.describe ++ ": " ++ w.finding.message

namespace LeftEdge

/-- Whether two atoms have the same shape, down to their terminals and references; `bound`
limits how deep the shapes may be. -/
def sameShape (e : LeftEdge) : Nat → AtomId → AtomId → Bool
  | 0, a, b => a = b
  | bound + 1, a, b =>
      if a = b then true
      else
        let same (as bs : List AtomId) : Bool :=
          as.length = bs.length && (as.zip bs).all fun p => sameShape e bound p.1 p.2
        match e.grammar.atoms[a]?, e.grammar.atoms[b]? with
        | some (.sequence as), some (.sequence bs) => same as bs
        | some (.choice as), some (.choice bs) => same as bs
        | some (.discard a), some (.discard b) => same [a] [b]
        | some (.splice a), some (.splice b) => same [a] [b]
        | some (.repetition a m n), some (.repetition b m' n') =>
            m = m' && n = n' && same [a] [b]
        | some (.lookahead a p), some (.lookahead b q) => p = q && same [a] [b]
        | some x, some y => x = y
        | _, _ => false

def same (e : LeftEdge) (a b : AtomId) : Bool := e.sameShape e.grammar.atoms.size a b

/-- Whether an atom numbered below `bound` matches at every position. -/
def atomSucceeds (e : LeftEdge) (ruleSucceeds : RuleId → SortedSet RuleId → Verdict) :
    Nat → AtomId → SortedSet RuleId → Verdict
  | 0, _, visited => (false, visited)
  | bound + 1, id, visited =>
      let succeeds := atomSucceeds e ruleSucceeds bound
      match e.grammar.atoms[id]? with
      | none => (false, visited)
      | some (.rule rule) => ruleSucceeds rule visited
      | some (.literal text) => (text.isEmpty, visited)
      | some (.pattern _) => (e.isNullable id, visited)
      | some (.token _) => (false, visited)
      | some (.sequence atoms) => allHold succeeds atoms visited
      | some (.choice atoms) => anyHolds succeeds atoms visited
      | some (.repetition atom min _) => if min = 0 then (true, visited) else succeeds atom visited
      | some (.lookahead atom positive) =>
          if positive then succeeds atom visited else (false, visited)
      | some (.discard atom) => succeeds atom visited
      | some (.splice atom) => succeeds atom visited

/-- The same for a rule, which is looked into once. -/
def ruleSucceeds (e : LeftEdge) : Nat → RuleId → SortedSet RuleId → Verdict
  | 0, _, visited => (false, visited)
  | depth + 1, rule, visited =>
      if visited.contains rule then (false, visited)
      else match e.grammar.rules[rule]? with
        | none => (false, visited)
        | some r =>
            atomSucceeds e (ruleSucceeds e depth) e.grammar.atoms.size r.body
              (visited.insert rule)

def alwaysSucceeds (e : LeftEdge) (id : AtomId) : Bool :=
  (e.atomSucceeds (e.ruleSucceeds e.grammar.rules.size) e.grammar.atoms.size id .empty).1

/-- Each alternative that repeats an earlier one, with the first it repeats. -/
def duplicates (e : LeftEdge) (atoms : List AtomId) : List Finding :=
  atoms.zipIdx.filterMap fun (alt, i) =>
    ((atoms.take i).findIdx? fun earlier => e.same earlier alt).map (.duplicateAlternative i)

/-- The alternatives behind the first that always succeeds, if there are any. -/
def unreachable (e : LeftEdge) (atoms : List AtomId) : List Finding :=
  match atoms.findIdx? e.alwaysSucceeds with
  | none => []
  | some k =>
      if k + 1 < atoms.length then [.unreachableAlternatives k (atoms.length - k - 1)] else []

/-- What is to be said about one atom, its children apart. -/
def atomFindings (e : LeftEdge) : Atom → List Finding
  | .repetition atom _ max =>
      if max = some 0 then [.repetitionOfNothing]
      else if e.isNullable atom then [.repetitionOfEmpty]
      else []
  | .choice atoms => e.duplicates atoms ++ e.unreachable atoms
  | _ => []

/-- Goes through a list of atoms with the ones seen so far. -/
def findAll (find : AtomId → SortedSet AtomId → List Finding × SortedSet AtomId) :
    List AtomId → SortedSet AtomId → List Finding × SortedSet AtomId
  | [], seen => ([], seen)
  | a :: rest, seen =>
      let (first, seen) := find a seen
      let (others, seen) := findAll find rest seen
      (first ++ others, seen)

/-- The findings for an atom numbered below `bound` and all atoms below it, each looked at once. -/
def findingsFrom (e : LeftEdge) : Nat → AtomId → SortedSet AtomId →
    List Finding × SortedSet AtomId
  | 0, _, seen => ([], seen)
  | bound + 1, id, seen =>
      if seen.contains id then ([], seen)
      else match e.grammar.atoms[id]? with
        | none => ([], seen)
        | some atom =>
            let (below, seen) := findAll (findingsFrom e bound) atom.children (seen.insert id)
            (e.atomFindings atom ++ below, seen)

/-- The rules that an atom numbered below `bound` refers to, at its left edge or not. -/
def references (e : LeftEdge) : Nat → AtomId → SortedSet RuleId
  | 0, _ => .empty
  | bound + 1, id =>
      match e.grammar.atoms[id]? with
      | none => .empty
      | some (.rule rule) => .singleton rule
      | some atom =>
          atom.children.foldl (fun refs a => refs.union (references e bound a)) .empty

def usedRules (e : LeftEdge) : SortedSet RuleId :=
  let refs := e.grammar.rules.map fun r => e.references e.grammar.atoms.size r.body
  Reachability.closure (fun r => refs[r]?.getD .empty) e.grammar.rules.size
    (.singleton e.grammar.root)

/-- All warnings: left recursion, unused rules, and then rule by rule what its atoms give rise
to. -/
def warnings (e : LeftEdge) : List Warning :=
  let rules := e.grammar.rules.toList.zipIdx
  let used := e.usedRules
  let recursive := rules.filterMap fun (r, id) =>
    if e.isLeftRecursive id then some ⟨r.name, .leftRecursion⟩ else none
  let unused := rules.filterMap fun (r, id) =>
    if used.contains id then none else some ⟨r.name, .unusedRule⟩
  let inside := rules.flatMap fun (r, _) =>
    (e.findingsFrom e.grammar.atoms.size r.body .empty).1.map (⟨r.name, ·⟩)
  recursive ++ unused ++ inside

end LeftEdge

def Grammar.warnings (g : Grammar) : List Warning := g.leftEdge.warnings

end Seedling
