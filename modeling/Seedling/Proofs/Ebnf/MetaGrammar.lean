import Seedling.Proofs.Ebnf.Lexemes
import Seedling.Proofs.Grammar.Ascending
import Seedling.Proofs.Grammar.Building

/-!
The grammar of grammar text is in order. Its tables are written out, atoms by the rule that they
belong to; its patterns are those of the words, and every rule calls only later rules before it
has consumed anything.
-/

namespace Seedling.Ebnf

open Atom in
/-- The atoms of the grammar, a few lines for each of its rules. -/
def metaAtoms : Array Atom :=
  #[rule 14, discard 0, rule 1, repetition 2 1 none, sequence [1, 3],
    rule 11, rule 14, discard 6, literal ":", discard 8, rule 14, discard 10, rule 2, literal ";",
      discard 13, rule 14, discard 15, sequence [5, 7, 9, 11, 12, 14, 16],
    rule 3, literal "|", discard 19, rule 14, discard 21, rule 3, sequence [20, 22, 23],
      repetition 24 0 none, sequence [18, 25],
    rule 4, repetition 27 0 none,
    rule 5, repetition 29 0 (some 1), rule 7, rule 6, repetition 32 0 (some 1), rule 14, discard 34,
      sequence [30, 31, 33, 35],
    pattern "[!&]",
    pattern "[*+?]",
    rule 8, rule 9, rule 10, rule 11, rule 12, rule 13, choice [39, 40, 41, 42, 43, 44], splice 45,
    literal "(", discard 47, rule 14, discard 49, rule 2, literal ")", discard 52,
      sequence [48, 50, 51, 53],
    literal "[", discard 55, rule 14, discard 57, rule 2, literal "]", discard 60,
      sequence [56, 58, 59, 61],
    literal "<", discard 63, rule 14, discard 65, rule 2, literal ">", discard 68,
      sequence [64, 66, 67, 69],
    pattern "[A-Za-z_][A-Za-z0-9_]*",
    pattern "'([^'\\\\]|\\\\.)*'|\"([^\"\\\\]|\\\\.)*\"",
    pattern "`[^`]*`",
    pattern "([ \\t\\r\\n]|#[^\\n]*)*"]

def metaRules : Array Rule :=
  #[⟨"grammar", 4⟩, ⟨"production", 17⟩, ⟨"alternatives", 26⟩, ⟨"sequence", 28⟩, ⟨"item", 36⟩,
    ⟨"prefix", 37⟩, ⟨"suffix", 38⟩, ⟨"primary", 46⟩, ⟨"group", 54⟩, ⟨"discarded", 62⟩,
    ⟨"spliced", 70⟩, ⟨"name", 71⟩, ⟨"literal", 72⟩, ⟨"regex", 73⟩, ⟨"ws", 74⟩]

set_option maxRecDepth 4000 in
theorem metaGrammar_eq : metaGrammar = Grammar.ofParts metaAtoms metaRules 0 := by
  with_unfolding_all rfl

/-- A grammar with these tables, in order. -/
structure IsMeta (g : Grammar) : Prop extends g.Compiled where
  atoms_eq : g.atoms = metaAtoms
  rules_eq : g.rules = metaRules
  root_eq : g.root = 0

theorem IsMeta.atom {g : Grammar} (hg : IsMeta g) {id : AtomId} {atom : Atom}
    (hatom : metaAtoms[id]? = some atom) : g.atoms[id]? = some atom := by
  rw [hg.atoms_eq, hatom]

theorem IsMeta.rule {g : Grammar} (hg : IsMeta g) {r : RuleId} {rule : Rule}
    (hrule : metaRules[r]? = some rule) : g.rules[r]? = some rule := by
  rw [hg.rules_eq, hrule]

/-! ### The checks -/

open Grammar

set_option maxRecDepth 4000 in
theorem assemble_meta : assemble metaAtoms metaRules 0 =
    metaAtoms.toList.mapM compileMatcher >>= fun matchers =>
      .ok ⟨metaAtoms, metaRules, 0, matchers.toArray⟩ := by
  with_unfolding_all rfl

theorem terminals_meta : Builder.terminals metaAtoms.toList =
    [.literal ":", .literal ";", .literal "|", .pattern "[!&]", .pattern "[*+?]",
      .literal "(", .literal ")", .literal "[", .literal "]", .literal "<", .literal ">",
        .pattern "[A-Za-z_][A-Za-z0-9_]*",
      .pattern "'([^'\\\\]|\\\\.)*'|\"([^\"\\\\]|\\\\.)*\"", .pattern "`[^`]*`",
      .pattern "([ \\t\\r\\n]|#[^\\n]*)*"] := by
  rfl

theorem exists_matchers : ∃ matchers, metaAtoms.toList.mapM compileMatcher = .ok matchers := by
  have hunit := mapM_terminals metaAtoms.toList
  rw [terminals_meta] at hunit
  simp only [List.mapM_cons, List.mapM_nil, compileMatcher, parse_prefixSign,
    parse_suffixSign, parse_name, parse_literal, parse_fence, parse_blank] at hunit
  cases hmatchers : metaAtoms.toList.mapM compileMatcher with
  | error e =>
      rw [hmatchers] at hunit
      contradiction
  | ok matchers => exact ⟨matchers, rfl⟩

def isMark : Atom → Bool
  | .literal _ => true
  | .discard a => (metaAtoms[a]?.bind fun atom => atom.label?).isSome
  | _ => false

def unmarked : Array Bool := metaAtoms.map fun atom => !isMark atom

section Checks

variable (matchers : Array (Option Automaton.Recognizer))

set_option maxRecDepth 4000 in
theorem nullable_meta : (List.range metaAtoms.size).all (fun id => isNullableIn unmarked id ||
    !(Grammar.mk metaAtoms metaRules 0 matchers).nullableGiven (fun _ => true) id) = true := by
  with_unfolding_all rfl

set_option maxRecDepth 4000 in
theorem leftCalls_meta : (List.range metaRules.size).all (fun r =>
    ((Grammar.mk metaAtoms metaRules 0 matchers).leftCalls unmarked metaAtoms.size
      ((metaRules[r]?.map Rule.body).getD 0)).toList.all fun r' => decide (r < r')) = true := by
  with_unfolding_all rfl

theorem ascending_meta : (Grammar.mk metaAtoms metaRules 0 matchers).Ascending unmarked := by
  intro r rule hrule r' hr'
  have hrule : metaRules[r]? = some rule := hrule
  have hlt : r < metaRules.size := (Array.getElem?_eq_some_iff.1 hrule).1
  have hall := List.all_eq_true.1 (leftCalls_meta matchers) r (List.mem_range.2 hlt)
  rw [hrule] at hall
  exact of_decide_eq_true (List.all_eq_true.1 hall r' hr')

theorem unmarked_of_nullable (hg : (Grammar.mk metaAtoms metaRules 0 matchers).Compiled)
    (id : AtomId)
    (h : isNullableIn (Grammar.mk metaAtoms metaRules 0 matchers).nullable id = true) :
    isNullableIn unmarked id = true := by
  have hgiven : (Grammar.mk metaAtoms metaRules 0 matchers).nullableGiven
      (fun _ => true) id = true :=
    hg.justified_nullable (fun _ _ => rfl) id h
  by_cases hlt : id < metaAtoms.size
  · have hall := List.all_eq_true.1 (nullable_meta matchers) id (List.mem_range.2 hlt)
    rwa [hgiven, Bool.not_true, Bool.or_false] at hall
  · have hnone : metaAtoms[id]? = none := Array.getElem?_eq_none (Nat.le_of_not_lt hlt)
    have hfalse : (Grammar.mk metaAtoms metaRules 0 matchers).nullableGiven
        (fun _ => true) id = false := by
      rw [nullableGiven,
        show (Grammar.mk metaAtoms metaRules 0 matchers).atoms.size = 74 + 1 from rfl,
        Algebra.fold, show (Grammar.mk metaAtoms metaRules 0 matchers).atoms =
          metaAtoms from rfl, hnone]
      rfl
    exact absurd (hfalse.symm.trans hgiven) Bool.false_ne_true

end Checks

/-- The grammar of grammar text passes all checks. -/
theorem exists_meta : ∃ g, metaGrammar = .ok g ∧ IsMeta g := by
  obtain ⟨matchers, hmatchers⟩ := exists_matchers
  have hassemble : assemble metaAtoms metaRules 0 =
      .ok ⟨metaAtoms, metaRules, 0, matchers.toArray⟩ := by
    rw [assemble_meta, hmatchers]
    rfl
  have hcompiled := assemble_compiled hassemble
  have hnone := (ascending_meta matchers.toArray).unresolvable_eq_none hcompiled.toWellFormed
    (unmarked_of_nullable matchers.toArray hcompiled)
  refine ⟨_, ?_, hcompiled, rfl, rfl, rfl⟩
  rw [metaGrammar_eq, ofParts, hassemble]
  simp only [bind, Except.bind, hnone]
  rfl

end Seedling.Ebnf
