import Seedling.Parse.Error
import Seedling.Text.Ratio
import Seedling.Tree.Basic
import Std.Data.TreeMap

/-!
The memo table: for a rule and a position what is known of the rule there. An entry is in progress
while the rule is being evaluated, marked when the rule was met again meanwhile, and final when its
match or its failure has been settled.
-/

namespace Seedling

/-- A match of a rule. -/
structure Found where
  tree : ParseTree
  stop : Nat

inductive MemoState where
  | inProgress
  /-- Asked for again while in progress. -/
  | reentered
  /-- Has a seed that may still grow. -/
  | seeded
  | matched
  | failed
deriving DecidableEq

structure Entry where
  state : MemoState
  /-- Where the result ends. -/
  stop : Nat
  /-- The tree of the match, or of the seed while it grows. -/
  result : Option ParseTree
  failure : Option Failure
  /-- The rules whose entries at the same position depend on the seed. -/
  dependents : List RuleId

namespace Entry

def inProgress : Entry := ⟨.inProgress, 0, none, none, []⟩

/-- The match that the entry has so far. -/
def found? (e : Entry) : Option Found := e.result.map (⟨·, e.stop⟩)

def hasSeed (e : Entry) : Bool := e.result.isSome

def isFinal (e : Entry) : Bool := e.state = .matched || e.state = .failed

/-- Whether the rule has met itself, in this round or in an earlier one. -/
def isGrowing (e : Entry) : Bool := e.state = .reentered || e.hasSeed

def addDependents (e : Entry) (rules : List RuleId) : Entry :=
  { e with dependents := rules.foldl (fun l r => if l.contains r then l
    else l ++ [r]) e.dependents }

def store (e : Entry) (state : MemoState) (found : Found) : Entry :=
  { e with state, result := some found.tree, stop := found.stop }

end Entry

/-- By position, then by rule. -/
def compareSites (a b : Nat × RuleId) : Ordering := (compare a.1 b.1).then (compare a.2 b.2)

instance : Std.TransCmp compareSites :=
  inferInstanceAs (Std.TransCmp (compareLex (compareOn Prod.fst) (compareOn Prod.snd)))

instance : Std.LawfulEqCmp compareSites where
  eq_of_compare {a b} h := by
    simp only [compareSites, Ordering.then_eq_eq, Nat.compare_eq_eq] at h
    exact Prod.ext h.1 h.2

structure MemoTable where
  entries : Std.TreeMap (Nat × RuleId) Entry compareSites
  hits : Nat
  misses : Nat

namespace MemoTable

def empty : MemoTable := ⟨∅, 0, 0⟩

instance : Inhabited MemoTable := ⟨empty⟩

def get? (m : MemoTable) (position : Nat) (rule : RuleId) : Option Entry :=
  m.entries[(position, rule)]?

/-- Looks an entry up and counts whether it was there. -/
def lookup (m : MemoTable) (position : Nat) (rule : RuleId) : Option Entry × MemoTable :=
  match m.get? position rule with
  | some entry => (some entry, { m with hits := m.hits + 1 })
  | none => (none, { m with misses := m.misses + 1 })

def insert (m : MemoTable) (position : Nat) (rule : RuleId) (entry : Entry) : MemoTable :=
  { m with entries := m.entries.insert (position, rule) entry }

def update (m : MemoTable) (position : Nat) (rule : RuleId) (f : Entry → Entry) : MemoTable :=
  match m.get? position rule with
  | some entry => m.insert position rule (f entry)
  | none => m

def remove (m : MemoTable) (position : Nat) (rule : RuleId) : MemoTable :=
  { m with entries := m.entries.erase (position, rule) }

def size (m : MemoTable) : Nat := m.entries.size

def isEmpty (m : MemoTable) : Bool := m.entries.isEmpty

def lookups (m : MemoTable) : Nat := m.hits + m.misses

/-- The share of lookups that found an entry, with six places. -/
def hitRate (m : MemoTable) : String := Text.sixPlaces m.hits m.lookups

section View

variable (m : MemoTable) (p p' : Nat) (r r' : RuleId)

@[simp] theorem get?_empty : empty.get? p r = none := Std.TreeMap.getElem?_emptyc

theorem get?_insert (entry : Entry) :
    (m.insert p r entry).get? p' r' = if p = p' ∧ r = r' then some entry else m.get? p' r' := by
  simp only [get?, insert]
  rw [Std.TreeMap.getElem?_insert]
  simp [Std.LawfulEqCmp.compare_eq_iff_eq]

theorem get?_remove :
    (m.remove p r).get? p' r' = if p = p' ∧ r = r' then none else m.get? p' r' := by
  simp only [get?, remove]
  rw [Std.TreeMap.getElem?_erase]
  simp [Std.LawfulEqCmp.compare_eq_iff_eq]

theorem get?_update (f : Entry → Entry) :
    (m.update p r f).get? p' r' =
      if p = p' ∧ r = r' then (m.get? p' r').map f else m.get? p' r' := by
  cases h : m.get? p r with
  | none =>
      simp only [update, h]
      split
      · rename_i hsite
        obtain ⟨rfl, rfl⟩ := hsite
        simp [h]
      · rfl
  | some entry =>
      simp only [update, h, get?_insert]
      split
      · rename_i hsite
        obtain ⟨rfl, rfl⟩ := hsite
        simp [h]
      · rfl

end View

end MemoTable

end Seedling
