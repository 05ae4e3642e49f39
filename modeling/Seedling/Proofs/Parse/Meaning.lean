import Seedling.Parse.Input
import Seedling.Parse.Memo

/-!
What parsing expressions mean, once it is said what the rules answer. The meaning of an expression
at a position is a match or a failure; which rules are asked where on the way is a relation of its
own. Nothing here knows of a memo table or of the order in which rules are settled.
-/

namespace Seedling

/-- A match of an atom: where it stops, the trees it adds, and which of them, if any, takes the
place of the rule's node. -/
structure Piece where
  stop : Nat
  trees : List ParseTree
  splice : Option Nat

namespace Piece

def nothing (pos : Nat) : Piece := ⟨pos, [], none⟩

def single (stop : Nat) (tree : ParseTree) : Piece := ⟨stop, [tree], none⟩

/-- One match after the other. The last splice counts. -/
def append (x y : Piece) : Piece :=
  ⟨y.stop, x.trees ++ y.trees, (y.splice.map (· + x.trees.length)).or x.splice⟩

/-- An only tree is marked to take the node's place. -/
def spliced (x : Piece) : Piece :=
  { x with splice := if x.trees.length = 1 then some 0 else x.splice }

/-- The match of a rule whose body has matched. -/
def found (x : Piece) (name : String) : Found :=
  ⟨(x.splice.bind (x.trees[·]?)).getD (.node name x.trees), x.stop⟩

end Piece

abbrev Answers := RuleId → Nat → Option Found → Prop

/-- An expression under evaluation: an atom, what an atom is, the rest of a sequence or of a
choice, and a repetition after `count` matches. -/
inductive Form where
  | atom (id : AtomId)
  | operator (id : AtomId) (atom : Atom)
  | items (atoms : List AtomId)
  | alternatives (atoms : List AtomId)
  | run (atom : AtomId) (min : Nat) (max : Option Nat) (count : Nat)

/-- Whether a repetition may not match once more. -/
def isFull (max : Option Nat) (count : Nat) : Bool := max.any (· ≤ count)

/-- The meaning of expressions, given the answers of the rules; `none` is a failure. -/
inductive Meaning (g : Grammar) (subject : Subject) (A : Answers) :
    Form → Nat → Option Piece → Prop where
  | atom {id atom p o} :
      g.atoms[id]? = some atom → Meaning g subject A (.operator id atom) p o →
        Meaning g subject A (.atom id) p o
  | rule {id r p o} :
      A r p o →
        Meaning g subject A (.operator id (.rule r)) p (o.map fun f => .single f.stop f.tree)
  | literal {id text p} :
      Meaning g subject A (.operator id (.literal text)) p
        ((subject.matchTerminal g id p).map fun m => .single m.1 m.2)
  | pattern {id pattern p} :
      Meaning g subject A (.operator id (.pattern pattern)) p
        ((subject.matchTerminal g id p).map fun m => .single m.1 m.2)
  | token {id name p} :
      Meaning g subject A (.operator id (.token name)) p
        ((subject.matchTerminal g id p).map fun m => .single m.1 m.2)
  | sequence {id atoms p o} :
      Meaning g subject A (.items atoms) p o →
        Meaning g subject A (.operator id (.sequence atoms)) p o
  | choice {id atoms p o} :
      Meaning g subject A (.alternatives atoms) p o →
        Meaning g subject A (.operator id (.choice atoms)) p o
  | repetition {id a min max p o} :
      Meaning g subject A (.run a min max 0) p o →
        Meaning g subject A (.operator id (.repetition a min max)) p o
  | lookahead {id a positive p o} :
      Meaning g subject A (.atom a) p o →
        Meaning g subject A (.operator id (.lookahead a positive)) p
          (if o.isSome = positive then some (.nothing p) else none)
  | discard {id a p o} :
      Meaning g subject A (.atom a) p o →
        Meaning g subject A (.operator id (.discard a)) p (o.map fun x => .nothing x.stop)
  | splice {id a p o} :
      Meaning g subject A (.atom a) p o →
        Meaning g subject A (.operator id (.splice a)) p (o.map Piece.spliced)
  | done {p} : Meaning g subject A (.items []) p (some (.nothing p))
  | item {a rest p x o} :
      Meaning g subject A (.atom a) p (some x) → Meaning g subject A (.items rest) x.stop o →
        Meaning g subject A (.items (a :: rest)) p (o.map x.append)
  | broken {a rest p} :
      Meaning g subject A (.atom a) p none → Meaning g subject A (.items (a :: rest)) p none
  | exhausted {p} : Meaning g subject A (.alternatives []) p none
  | taken {a rest p x} :
      Meaning g subject A (.atom a) p (some x) →
        Meaning g subject A (.alternatives (a :: rest)) p (some x)
  | passed {a rest p o} :
      Meaning g subject A (.atom a) p none → Meaning g subject A (.alternatives rest) p o →
        Meaning g subject A (.alternatives (a :: rest)) p o
  | full {a min max count p} :
      isFull max count = true →
        Meaning g subject A (.run a min max count) p (some (.nothing p))
  | more {a min max count p x o} :
      isFull max count = false → Meaning g subject A (.atom a) p (some x) → p < x.stop →
        Meaning g subject A (.run a min max (count + 1)) x.stop o →
        Meaning g subject A (.run a min max count) p (o.map x.append)
  /-- A match of nothing stands for all that are missing. -/
  | empty {a min max count p x} :
      isFull max count = false → Meaning g subject A (.atom a) p (some x) → ¬ p < x.stop →
        Meaning g subject A (.run a min max count) p (some x)
  | enough {a min max count p} :
      isFull max count = false → Meaning g subject A (.atom a) p none → ¬ count < min →
        Meaning g subject A (.run a min max count) p (some (.nothing p))
  | tooFew {a min max count p} :
      isFull max count = false → Meaning g subject A (.atom a) p none → count < min →
        Meaning g subject A (.run a min max count) p none

/-- `Visits g subject A form p r q`: the evaluation of `form` at `p` comes to ask for rule `r`
at `q`. -/
inductive Visits (g : Grammar) (subject : Subject) (A : Answers) :
    Form → Nat → RuleId → Nat → Prop where
  | atom {id atom p r q} :
      g.atoms[id]? = some atom → Visits g subject A (.operator id atom) p r q →
        Visits g subject A (.atom id) p r q
  | rule {id r p} : Visits g subject A (.operator id (.rule r)) p r p
  | sequence {id atoms p r q} :
      Visits g subject A (.items atoms) p r q →
        Visits g subject A (.operator id (.sequence atoms)) p r q
  | choice {id atoms p r q} :
      Visits g subject A (.alternatives atoms) p r q →
        Visits g subject A (.operator id (.choice atoms)) p r q
  | repetition {id a min max p r q} :
      Visits g subject A (.run a min max 0) p r q →
        Visits g subject A (.operator id (.repetition a min max)) p r q
  | lookahead {id a positive p r q} :
      Visits g subject A (.atom a) p r q →
        Visits g subject A (.operator id (.lookahead a positive)) p r q
  | discard {id a p r q} :
      Visits g subject A (.atom a) p r q → Visits g subject A (.operator id (.discard a)) p r q
  | splice {id a p r q} :
      Visits g subject A (.atom a) p r q → Visits g subject A (.operator id (.splice a)) p r q
  | item {a rest p r q} :
      Visits g subject A (.atom a) p r q → Visits g subject A (.items (a :: rest)) p r q
  | items {a rest p x r q} :
      Meaning g subject A (.atom a) p (some x) → Visits g subject A (.items rest) x.stop r q →
        Visits g subject A (.items (a :: rest)) p r q
  | alternative {a rest p r q} :
      Visits g subject A (.atom a) p r q → Visits g subject A (.alternatives (a :: rest)) p r q
  | alternatives {a rest p r q} :
      Meaning g subject A (.atom a) p none → Visits g subject A (.alternatives rest) p r q →
        Visits g subject A (.alternatives (a :: rest)) p r q
  | next {a min max count p r q} :
      isFull max count = false → Visits g subject A (.atom a) p r q →
        Visits g subject A (.run a min max count) p r q
  | more {a min max count p x r q} :
      isFull max count = false → Meaning g subject A (.atom a) p (some x) → p < x.stop →
        Visits g subject A (.run a min max (count + 1)) x.stop r q →
        Visits g subject A (.run a min max count) p r q

section Meaning

variable {g : Grammar} {subject : Subject} {A A' : Answers} {form : Form} {p : Nat}
  {o o' : Option Piece}

/-- Only the answers at the sites that are visited matter. -/
theorem Meaning.congr (h : Meaning g subject A form p o)
    (hA : ∀ r q o, Visits g subject A form p r q → A r q o → A' r q o) :
    Meaning g subject A' form p o := by
  induction h with
  | atom hatom _ ih => exact .atom hatom (ih fun r q o hv => hA r q o (.atom hatom hv))
  | rule ha => exact .rule (hA _ _ _ .rule ha)
  | literal => exact .literal
  | pattern => exact .pattern
  | token => exact .token
  | sequence _ ih => exact .sequence (ih fun r q o hv => hA r q o (.sequence hv))
  | choice _ ih => exact .choice (ih fun r q o hv => hA r q o (.choice hv))
  | repetition _ ih => exact .repetition (ih fun r q o hv => hA r q o (.repetition hv))
  | lookahead _ ih => exact .lookahead (ih fun r q o hv => hA r q o (.lookahead hv))
  | discard _ ih => exact .discard (ih fun r q o hv => hA r q o (.discard hv))
  | splice _ ih => exact .splice (ih fun r q o hv => hA r q o (.splice hv))
  | done => exact .done
  | item hx _ ihx ih =>
      exact .item (ihx fun r q o hv => hA r q o (.item hv))
        (ih fun r q o hv => hA r q o (.items hx hv))
  | broken _ ih => exact .broken (ih fun r q o hv => hA r q o (.item hv))
  | exhausted => exact .exhausted
  | taken _ ih => exact .taken (ih fun r q o hv => hA r q o (.alternative hv))
  | passed hx _ ihx ih =>
      exact .passed (ihx fun r q o hv => hA r q o (.alternative hv))
        (ih fun r q o hv => hA r q o (.alternatives hx hv))
  | full hfull => exact .full hfull
  | more hfull hx hlt _ ihx ih =>
      exact .more hfull (ihx fun r q o hv => hA r q o (.next hfull hv)) hlt
        (ih fun r q o hv => hA r q o (.more hfull hx hlt hv))
  | empty hfull _ hle ih => exact .empty hfull (ih fun r q o hv => hA r q o (.next hfull hv)) hle
  | enough hfull _ hcount ih =>
      exact .enough hfull (ih fun r q o hv => hA r q o (.next hfull hv)) hcount
  | tooFew hfull _ hcount ih =>
      exact .tooFew hfull (ih fun r q o hv => hA r q o (.next hfull hv)) hcount

theorem Meaning.mono (h : Meaning g subject A form p o) (hA : ∀ r q o, A r q o → A' r q o) :
    Meaning g subject A' form p o :=
  h.congr fun r q o _ => hA r q o

theorem Visits.mono {r : RuleId} {q : Nat} (h : Visits g subject A form p r q)
    (hA : ∀ r q o, A r q o → A' r q o) : Visits g subject A' form p r q := by
  induction h with
  | atom hatom _ ih => exact .atom hatom ih
  | rule => exact .rule
  | sequence _ ih => exact .sequence ih
  | choice _ ih => exact .choice ih
  | repetition _ ih => exact .repetition ih
  | lookahead _ ih => exact .lookahead ih
  | discard _ ih => exact .discard ih
  | splice _ ih => exact .splice ih
  | item _ ih => exact .item ih
  | items hx _ ih => exact .items (hx.mono hA) ih
  | alternative _ ih => exact .alternative ih
  | alternatives hx _ ih => exact .alternatives (hx.mono hA) ih
  | next hfull _ ih => exact .next hfull ih
  | more hfull hx hlt _ ih => exact .more hfull (hx.mono hA) hlt ih

theorem Meaning.unique (h : Meaning g subject A form p o) (h' : Meaning g subject A' form p o')
    (hA : ∀ r q o o', A r q o → A' r q o' → o = o') : o = o' := by
  -- The second derivation ends in the same rule as the first, or in one that is excluded by
  -- what a part came to, by the count of matches or by whether anything was consumed.
  induction h generalizing o' with
  | atom hatom _ ih =>
      cases h' with
      | atom hatom' h' =>
          rw [hatom] at hatom'
          cases hatom'
          exact ih h'
  | rule ha =>
      cases h' with
      | rule ha' => rw [hA _ _ _ _ ha ha']
  | literal | pattern | token =>
      cases h'
      rfl
  | sequence _ ih =>
      cases h' with
      | sequence h' => exact ih h'
  | choice _ ih =>
      cases h' with
      | choice h' => exact ih h'
  | repetition _ ih =>
      cases h' with
      | repetition h' => exact ih h'
  | lookahead _ ih =>
      cases h' with
      | lookahead h' => rw [ih h']
  | discard _ ih =>
      cases h' with
      | discard h' => rw [ih h']
  | splice _ ih =>
      cases h' with
      | splice h' => rw [ih h']
  | done =>
      cases h'
      rfl
  | item _ _ ihx ih =>
      cases h' with
      | item hx' h' =>
          cases ihx hx'
          rw [ih h']
      | broken hx' => cases ihx hx'
  | broken _ ihx =>
      cases h' with
      | item hx' => cases ihx hx'
      | broken => rfl
  | exhausted =>
      cases h'
      rfl
  | taken _ ihx =>
      cases h' with
      | taken hx' => exact ihx hx'
      | passed hx' => cases ihx hx'
  | passed _ _ ihx ih =>
      cases h' with
      | taken hx' => cases ihx hx'
      | passed _ h' => exact ih h'
  | full hfull =>
      cases h' with
      | full => rfl
      | more hfull' | empty hfull' | enough hfull' | tooFew hfull' =>
          cases hfull.symm.trans hfull'
  | more hfull _ hlt _ ihx ih =>
      cases h' with
      | full hfull' =>
          cases hfull.symm.trans hfull'
      | more _ hx' _ h' =>
          cases ihx hx'
          rw [ih h']
      | empty _ hx' hle =>
          cases ihx hx'
          exact absurd hlt hle
      | enough _ hx' | tooFew _ hx' => cases ihx hx'
  | empty hfull _ hle ihx =>
      cases h' with
      | full hfull' =>
          cases hfull.symm.trans hfull'
      | more _ hx' hlt =>
          cases ihx hx'
          exact absurd hlt hle
      | empty _ hx' => exact ihx hx'
      | enough _ hx' | tooFew _ hx' => cases ihx hx'
  | enough hfull _ hcount ihx =>
      cases h' with
      | full hfull' =>
          cases hfull.symm.trans hfull'
      | more _ hx' | empty _ hx' => cases ihx hx'
      | enough => rfl
      | tooFew _ _ hcount' => exact absurd hcount' hcount
  | tooFew hfull _ hcount ihx =>
      cases h' with
      | full hfull' =>
          cases hfull.symm.trans hfull'
      | more _ hx' | empty _ hx' => cases ihx hx'
      | enough _ _ hcount' => exact absurd hcount hcount'
      | tooFew => rfl

end Meaning

/-! ### Rules -/

def Body (g : Grammar) (subject : Subject) (A : Answers) (r : RuleId) (p : Nat)
    (o : Option Found) : Prop :=
  ∃ rule, g.rules[r]? = some rule ∧
    ∃ x, Meaning g subject A (.atom rule.body) p x ∧ o = x.map fun x => x.found rule.name

def BodyVisits (g : Grammar) (subject : Subject) (A : Answers) (r : RuleId) (p : Nat)
    (r' : RuleId) (q : Nat) : Prop :=
  ∃ rule, g.rules[r]? = some rule ∧ Visits g subject A (.atom rule.body) p r' q

/-- A match that the seed is outgrown by; any match outgrows no seed at all. -/
def Outgrows (seed o : Option Found) : Prop :=
  ∃ f, o = some f ∧ ∀ f₀, seed = some f₀ → f₀.stop < f.stop

/-- The growth of a seed: the next stage, which is evaluated with the seed for an answer, takes its
place as long as it is longer. `stage seed o` says that the stage after `seed` is `o`. -/
inductive GrowsTo (stage : Option Found → Option Found → Prop) :
    Option Found → Option Found → Prop where
  | settled {seed o} : stage seed o → ¬ Outgrows seed o → GrowsTo stage seed seed
  | grown {seed o o'} : stage seed o → Outgrows seed o → GrowsTo stage o o' →
      GrowsTo stage seed o'

section Rules

variable {g : Grammar} {subject : Subject} {A A' : Answers} {r : RuleId} {p : Nat}
  {o o' : Option Found}

theorem Body.congr (h : Body g subject A r p o)
    (hA : ∀ r' q o, BodyVisits g subject A r p r' q → A r' q o → A' r' q o) :
    Body g subject A' r p o := by
  obtain ⟨rule, hrule, x, hx, rfl⟩ := h
  exact ⟨rule, hrule, x, hx.congr fun r' q o hv => hA r' q o ⟨rule, hrule, hv⟩, rfl⟩

theorem Body.mono (h : Body g subject A r p o) (hA : ∀ r' q o, A r' q o → A' r' q o) :
    Body g subject A' r p o :=
  h.congr fun r' q o _ => hA r' q o

theorem Body.unique (h : Body g subject A r p o) (h' : Body g subject A' r p o')
    (hA : ∀ r' q o o', A r' q o → A' r' q o' → o = o') : o = o' := by
  obtain ⟨rule, hrule, x, hx, rfl⟩ := h
  obtain ⟨rule', hrule', x', hx', rfl⟩ := h'
  rw [hrule] at hrule'
  cases hrule'
  rw [hx.unique hx' hA]

theorem GrowsTo.mono {stage stage' : Option Found → Option Found → Prop}
    (h : GrowsTo stage o o') (hstage : ∀ seed o, stage seed o → stage' seed o) :
    GrowsTo stage' o o' := by
  induction h with
  | settled hs hout => exact .settled (hstage _ _ hs) hout
  | grown hs hout _ ih => exact .grown (hstage _ _ hs) hout ih

theorem GrowsTo.unique {stage stage' : Option Found → Option Found → Prop} {seed : Option Found}
    (h : GrowsTo stage seed o) (h' : GrowsTo stage' seed o')
    (hstage : ∀ seed o o', stage seed o → stage' seed o' → o = o') : o = o' := by
  induction h with
  | settled hs hout =>
      cases h' with
      | settled => rfl
      | grown hs' hout' =>
          rw [hstage _ _ _ hs hs'] at hout
          exact absurd hout' hout
  | grown hs hout _ ih =>
      cases h' with
      | settled hs' hout' =>
          rw [hstage _ _ _ hs hs'] at hout
          exact absurd hout hout'
      | grown hs' _ h' =>
          rw [← hstage _ _ _ hs hs'] at h'
          exact ih h'

end Rules

end Seedling
