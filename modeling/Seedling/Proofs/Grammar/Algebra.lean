import Seedling.Grammar.Builder
import Seedling.Proofs.Grammar.WellFormed

/-!
Whatever is computed from a table of atoms by way of their operands is given by an algebra,
which says what each operator makes of its operands. Some algebras do not see how series are
nested: a sequence inside a sequence counts as its items, and a choice inside a choice as its
alternatives. Two tables that differ only in that come to the same under such an algebra.
-/

namespace Seedling

inductive Series where
  | sequence
  | choice

def Series.atom : Series → List AtomId → Atom
  | .sequence => .sequence
  | .choice => .choice

inductive Wrapper where
  | repetition (min : Nat) (max : Option Nat)
  | lookahead (positive : Bool)
  | discard
  | splice

def Wrapper.atom (a : AtomId) : Wrapper → Atom
  | .repetition min max => .repetition a min max
  | .lookahead positive => .lookahead a positive
  | .discard => .discard a
  | .splice => .splice a

@[simp] theorem Series.children_atom (k : Series) (atoms : List AtomId) :
    (k.atom atoms).children = atoms := by
  cases k <;> rfl

@[simp] theorem Wrapper.children_atom (w : Wrapper) (a : AtomId) : (w.atom a).children = [a] := by
  cases w <;> rfl

/-- What each operator makes of its operands. -/
structure Algebra (α : Type) where
  /-- Terminals and references, which have no operands. -/
  leaf : Atom → α
  series : Series → List α → α
  wrap : Wrapper → α → α

namespace Algebra

variable {α : Type} (A : Algebra α)

/-- What an atom comes to if its operands come to `v`. -/
def value (v : AtomId → α) : Atom → α
  | .sequence atoms => A.series .sequence (atoms.map v)
  | .choice atoms => A.series .choice (atoms.map v)
  | .repetition a min max => A.wrap (.repetition min max) (v a)
  | .lookahead a positive => A.wrap (.lookahead positive) (v a)
  | .discard a => A.wrap .discard (v a)
  | .splice a => A.wrap .splice (v a)
  | .rule r => A.leaf (.rule r)
  | .literal text => A.leaf (.literal text)
  | .pattern p => A.leaf (.pattern p)
  | .token name => A.leaf (.token name)

@[simp] theorem value_series (v : AtomId → α) (k : Series) (atoms : List AtomId) :
    A.value v (k.atom atoms) = A.series k (atoms.map v) := by
  cases k <;> rfl

@[simp] theorem value_wrapper (v : AtomId → α) (w : Wrapper) (a : AtomId) :
    A.value v (w.atom a) = A.wrap w (v a) := by
  cases w <;> rfl

theorem value_congr {v w : AtomId → α} {atom : Atom} (h : ∀ c ∈ atom.children, v c = w c) :
    A.value v atom = A.value w atom := by
  cases atom with
  | rule | literal | pattern | token => rfl
  | sequence atoms | choice atoms => exact congrArg (A.series _) (List.map_congr_left h)
  | repetition a | lookahead a | discard a | splice a =>
      exact congrArg (A.wrap _) (h a List.mem_cons_self)

def Computes (table : AtomId → Option Atom) (v : AtomId → α) : Prop :=
  ∀ id atom, table id = some atom → v id = A.value v atom

/-- How series are nested makes no difference. -/
def Flat : Prop :=
  ∀ k pre inner post,
    A.series k (pre ++ A.series k inner :: post) = A.series k (pre ++ inner ++ post)

section Bounded

variable {A} {g : Grammar} {f : Nat → AtomId → α}

/-- A bound on the numbers of atoms does not matter, as operands have smaller numbers. -/
theorem bounded_eq (hg : g.WellFormed)
    (hstep : ∀ bound id atom, g.atoms[id]? = some atom → f (bound + 1) id = A.value (f bound) atom)
    {id : Nat} (hid : id < g.atoms.size) {bound bound' : Nat} (hlt : id < bound)
    (hlt' : id < bound') : f bound id = f bound' id := by
  induction id using Nat.strongRecOn generalizing bound bound' with
  | _ id ih =>
      obtain ⟨bound, rfl⟩ : ∃ n, bound = n + 1 := ⟨bound - 1, by omega⟩
      obtain ⟨bound', rfl⟩ : ∃ n, bound' = n + 1 := ⟨bound' - 1, by omega⟩
      have hatom : g.atoms[id]? = some g.atoms[id] := Array.getElem?_eq_getElem hid
      rw [hstep bound id _ hatom, hstep bound' id _ hatom]
      refine A.value_congr fun c hc => ?_
      have hc' : c < id := hg.child_lt hatom c hc
      exact ih c hc' (Nat.lt_trans hc' hid) (Nat.lt_of_lt_of_le hc' (Nat.le_of_lt_succ hlt))
        (Nat.lt_of_lt_of_le hc' (Nat.le_of_lt_succ hlt'))

/-- What is computed by a recursion on a bound is computed by the algebra. -/
theorem computes_of_bounded (hg : g.WellFormed)
    (hstep : ∀ bound id atom, g.atoms[id]? = some atom →
    f (bound + 1) id = A.value (f bound) atom) :
    A.Computes (g.atoms[·]?) (f g.atoms.size) := by
  intro id atom hatom
  have hid : id < g.atoms.size := (Array.getElem?_eq_some_iff.1 hatom).1
  rw [bounded_eq hg hstep hid hid (Nat.lt_succ_of_lt hid), hstep _ _ _ hatom]

end Bounded

end Algebra

/-- Atoms of one table that are as a whole what an atom of another is. The atoms are the
operands of a series, or part of them, where a kind of series is given; in the other table a
series of that kind may be inside them. -/
inductive Flattens (table table' : AtomId → Option Atom) :
    Option Series → List AtomId → AtomId → Prop where
  | leaf {k id id' atom} : atom.children = [] → table id = some atom → table' id' = some atom →
      Flattens table table' k [id] id'
  | wrap {k id id' a a'} (w : Wrapper) : Flattens table table' none [a] a' →
      table id = some (w.atom a) → table' id' = some (w.atom a') → Flattens table table' k [id] id'
  | items {k id id'} (k' : Series) (pairs : List (AtomId × AtomId)) :
      (∀ p ∈ pairs, Flattens table table' none [p.1] p.2) →
      table id = some (k'.atom (pairs.map Prod.fst)) →
        table' id' = some (k'.atom (pairs.map Prod.snd)) →
      Flattens table table' k [id] id'
  /-- A chain is over. -/
  | closed {k id id' xs ys x' y'} (k' : Series) : Flattens table table' (some k') xs x' →
      Flattens table table' (some k') ys y' → table id = some (k'.atom (xs ++ ys)) →
      table' id' = some (k'.atom [x', y']) → Flattens table table' k [id] id'
  /-- A chain goes on. -/
  | chain {id' xs ys x' y'} (k' : Series) : Flattens table table' (some k') xs x' →
      Flattens table table' (some k') ys y' → table' id' = some (k'.atom [x', y']) →
      Flattens table table' (some k') (xs ++ ys) id'

namespace Flattens

variable {table table' : AtomId → Option Atom} {k : Option Series} {ids : List AtomId}
  {id id' : AtomId}

theorem mono {bigger bigger' : AtomId → Option Atom}
    (hbigger : ∀ id atom, table id = some atom → bigger id = some atom)
    (hbigger' : ∀ id atom, table' id = some atom → bigger' id = some atom)
    (h : Flattens table table' k ids id') : Flattens bigger bigger' k ids id' := by
  induction h with
  | leaf hleaf hid hid' => exact .leaf hleaf (hbigger _ _ hid) (hbigger' _ _ hid')
  | wrap w _ hid hid' ih => exact .wrap w ih (hbigger _ _ hid) (hbigger' _ _ hid')
  | items k' pairs _ hid hid' ih => exact .items k' pairs ih (hbigger _ _ hid) (hbigger' _ _ hid')
  | closed k' _ _ hid hid' ihx ihy => exact .closed k' ihx ihy (hbigger _ _ hid) (hbigger' _ _ hid')
  | chain k' _ _ hid' ihx ihy => exact .chain k' ihx ihy (hbigger' _ _ hid')

theorem eq_singleton (h : Flattens table table' none ids id') : ∃ id, ids = [id] := by
  cases h with
  | leaf | wrap | items | closed => exact ⟨_, rfl⟩

theorem of_none (h : Flattens table table' none ids id') : Flattens table table' k ids id' := by
  cases h with
  | leaf hleaf hid hid' => exact .leaf hleaf hid hid'
  | wrap w ha hid hid' => exact .wrap w ha hid hid'
  | items k' pairs hpairs hid hid' => exact .items k' pairs hpairs hid hid'
  | closed k' hx hy hid hid' => exact .closed k' hx hy hid hid'

theorem isSome (h : Flattens table table' k ids id') :
    (∀ id ∈ ids, (table id).isSome = true) ∧ (table' id').isSome = true := by
  induction h with
  | leaf _ hid hid' | wrap _ _ hid hid' | items _ _ _ hid hid' | closed _ _ _ hid hid' =>
      simp [hid, hid']
  | chain k' _ _ hid' ihx ihy =>
      refine ⟨fun id hmem => ?_, by simp [hid']⟩
      rcases List.mem_append.1 hmem with hmem | hmem
      · exact ihx.1 id hmem
      · exact ihy.1 id hmem

variable {α : Type} {A : Algebra α} {v v' : AtomId → α}

/-- Under an algebra that does not see the nesting of series, atoms come to the same alone or as
part of a series. -/
theorem value_eq_or (hflat : A.Flat) (hv : A.Computes table v) (hv' : A.Computes table' v')
    (h : Flattens table table' k ids id') :
    (k = none → ids.map v = [v' id']) ∧ ∀ k', k = some k' → ∀ pre post,
      A.series k' (pre ++ ids.map v ++ post) = A.series k' (pre ++ v' id' :: post) := by
  have hsingle : ∀ {k : Option Series} {id id'}, v id = v' id' →
      (k = none → [id].map v = [v' id']) ∧ ∀ k', k = some k' → ∀ pre post,
        A.series k' (pre ++ [id].map v ++ post) = A.series k' (pre ++ v' id' :: post) := by
    intro k id id' heq
    simp [heq]
  -- two parts of a series, each replaced by one atom
  have hjoin : ∀ {k' : Series} {xs ys : List AtomId} {x' y' : AtomId},
      (∀ pre post, A.series k' (pre ++ xs.map v ++ post) = A.series k' (pre ++ v' x' :: post)) →
      (∀ pre post, A.series k' (pre ++ ys.map v ++ post) = A.series k' (pre ++ v' y' :: post)) →
      ∀ pre post, A.series k' (pre ++ (xs ++ ys).map v ++ post) =
        A.series k' (pre ++ [v' x', v' y'] ++ post) := by
    intro k' xs ys x' y' hx hy pre post
    have hxs := hx pre (ys.map v ++ post)
    have hys := hy (pre ++ [v' x']) post
    simp only [List.map_append, List.append_assoc, List.cons_append, List.nil_append] at hxs hys ⊢
    rw [hxs, hys]
  induction h with
  | leaf hleaf hid hid' =>
      refine hsingle ?_
      rw [hv _ _ hid, hv' _ _ hid']
      exact A.value_congr (by simp [hleaf])
  | wrap w _ hid hid' ih =>
      refine hsingle ?_
      rw [hv _ _ hid, hv' _ _ hid', A.value_wrapper, A.value_wrapper,
        List.singleton_inj.1 (ih.1 rfl)]
  | items k' pairs _ hid hid' ih =>
      refine hsingle ?_
      rw [hv _ _ hid, hv' _ _ hid', A.value_series, A.value_series, List.map_map, List.map_map]
      exact congrArg (A.series k') (List.map_congr_left fun p hp =>
        List.singleton_inj.1 ((ih p hp).1 rfl))
  | closed k' _ _ hid hid' ihx ihy =>
      refine hsingle ?_
      have hseries := hjoin (ihx.2 k' rfl) (ihy.2 k' rfl) [] []
      rw [hv _ _ hid, hv' _ _ hid', A.value_series, A.value_series]
      simpa using hseries
  | chain k' _ _ hid' ihx ihy =>
      refine ⟨by simp, fun k hk pre post => ?_⟩
      cases hk
      rw [hjoin (ihx.2 k' rfl) (ihy.2 k' rfl), hv' _ _ hid', A.value_series]
      exact (hflat k' pre _ post).symm

/-- Atoms that stand for each other come to the same. -/
theorem value_eq (hflat : A.Flat) (hv : A.Computes table v) (hv' : A.Computes table' v')
    (h : Flattens table table' none [id] id') : v id = v' id' :=
  List.singleton_inj.1 ((h.value_eq_or hflat hv hv').1 rfl)

end Flattens

/-- Rules with the same names, and with bodies that stand for each other. -/
structure SameRules (table table' : AtomId → Option Atom) (rules rules' : Array Rule) : Prop where
  size : rules.size = rules'.size
  rule : ∀ {r : Nat} {rule rule' : Rule}, rules[r]? = some rule → rules'[r]? = some rule' →
    rule.name = rule'.name ∧ Flattens table table' none [rule.body] rule'.body

namespace SameRules

variable {table table' : AtomId → Option Atom} {rules rules' : Array Rule}

theorem rule_cases (h : SameRules table table' rules rules') (r : Nat) :
    (rules[r]? = none ∧ rules'[r]? = none) ∨ ∃ rule rule', rules[r]? = some rule ∧
      rules'[r]? = some rule' ∧ rule.name = rule'.name ∧
        Flattens table table' none [rule.body] rule'.body := by
  have hsize := h.size
  cases hrule : rules[r]? with
  | none =>
      rw [Array.getElem?_eq_none_iff] at hrule
      exact .inl ⟨rfl, Array.getElem?_eq_none (by omega)⟩
  | some rule =>
      have hlt := (Array.getElem?_eq_some_iff.1 hrule).1
      have hrule' : rules'[r]? = some _ := Array.getElem?_eq_getElem (by omega)
      exact .inr ⟨rule, _, rfl, hrule', h.rule hrule hrule'⟩

theorem ruleNames (h : SameRules table table' rules rules') :
    rules.toList.map Rule.name = rules'.toList.map Rule.name := by
  refine List.ext_getElem? fun r => ?_
  rw [List.getElem?_map, List.getElem?_map, Array.getElem?_toList, Array.getElem?_toList]
  rcases h.rule_cases r with ⟨hrule, hrule'⟩ | ⟨rule, rule', hrule, hrule', hname, -⟩
  · rw [hrule, hrule']
  · rw [hrule, hrule']
    exact congrArg some hname

theorem findIdx?_eq (h : SameRules table table' rules rules') (name : String) :
    (rules.findIdx? fun r => r.name = name) = rules'.findIdx? fun r => r.name = name := by
  have hnames := congrArg (List.findIdx? fun n => n = name) h.ruleNames
  rw [List.findIdx?_map, List.findIdx?_map, ← List.findIdx?_toArray,
    ← List.findIdx?_toArray] at hnames
  exact hnames

end SameRules

end Seedling
