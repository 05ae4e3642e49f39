import Seedling.Proofs.Automaton.Document
import Seedling.Proofs.Grammar.Document
import Seedling.Proofs.Tree.Document

/-!
Reading undoes writing: for automata and grammars without exception, for trees to the depth that
a reader follows.
-/

namespace Seedling

/-- What is written of an automaton, a grammar or a tree gives the same automaton, grammar or
tree back when it is read, and a tree of more than 42 levels is refused. -/
theorem ofJson_undoes_toJson :
    (∀ d : Automaton.Dfa, d.Valid → d.size ≤ UInt64.size → Automaton.Dfa.ofJson d.toJson = .ok d) ∧
    (∀ atoms rules root g, Grammar.ofParts atoms rules root = .ok g → g.Fits →
      Grammar.ofJson g.toJson = .ok g) ∧
    ∀ tree : ParseTree, tree.Fits →
      ParseTree.ofJson tree.toJson = if tree.height ≤ 42 then some tree else none :=
  ⟨fun _ hd hsize => hd.ofJson_toJson hsize, fun _ _ _ _ h hfits => Grammar.ofJson_toJson h hfits,
    fun _ h => ParseTree.ofJson_toJson h⟩

/-- Three states, with names that have to be escaped and one that has not. -/
def Automaton.Dfa.named : Dfa where
  names := #["\"q\"", "\t\x00", "芽🌱"]
  rows := #[.ofList [(0, 1), (255, 2)], .ofList [(97, 0)], .empty]
  final := .ofList [0, 2]
  unmergeable := .singleton 1

/-- A left-recursive rule with bounds, over a text that has to be escaped. -/
def Grammar.named : Grammar where
  atoms := #[.literal "\"\\\n", .repetition 0 1 (some 3), .lookahead 0 false,
    .sequence [1, 2], .rule 0, .sequence [4, 3], .choice [5, 3]]
  rules := #[⟨"芽🌱", 6⟩]
  root := 0
  matchers := Array.replicate 7 none

/-- A leaf below `n` nodes. -/
def ParseTree.chain : Nat → ParseTree
  | 0 => .leaf "'\"'" "\"" ⟨0, 1, 1⟩
  | n + 1 => .node "芽🌱" [chain n]

theorem ParseTree.height_chain (n : Nat) : (chain n).height = n + 1 := by
  induction n with
  | zero => rfl
  | succ n ih => simp [chain, height, forestHeight, ih]

theorem ParseTree.fits_chain (n : Nat) : (chain n).Fits := by
  induction n with
  | zero =>
      intro l hl
      obtain rfl : l = ("'\"'", "\"", ⟨0, 1, 1⟩) := by simpa [chain, leaves] using hl
      exact ⟨by decide, by decide, by decide⟩
  | succ n ih =>
      intro l hl
      simp only [chain, leaves, forestLeaves, List.append_nil] at hl
      exact ih l hl

theorem ofJson_undoes_toJson_named :
    Automaton.Dfa.ofJson Automaton.Dfa.named.toJson = .ok .named ∧
      Grammar.ofJson Grammar.named.toJson = .ok .named ∧
      ParseTree.ofJson (ParseTree.chain 41).toJson = some (.chain 41) := by
  have hchecked : Automaton.Dfa.ofParts Automaton.Dfa.named.names Automaton.Dfa.named.rows
      Automaton.Dfa.named.final Automaton.Dfa.named.unmergeable = .ok .named := by
    with_unfolding_all rfl
  have hparts : Grammar.ofParts Grammar.named.atoms Grammar.named.rules 0 = .ok .named := by
    with_unfolding_all rfl
  have hfits : Grammar.named.Fits := by
    refine ⟨by decide, by decide, fun {atom min max} h => ?_⟩
    obtain ⟨-, rfl, rfl⟩ : atom = 0 ∧ min = 1 ∧ max = some 3 := by simpa [Grammar.named] using h
    exact ⟨by decide, by simp [UInt64.size]⟩
  obtain ⟨hdfas, hgrammars, htrees⟩ := ofJson_undoes_toJson
  refine ⟨hdfas _ (Automaton.Dfa.valid_of_ofParts hchecked) (by decide),
    hgrammars _ _ _ _ hparts hfits, ?_⟩
  rw [htrees _ (ParseTree.fits_chain 41), if_pos (Nat.le_of_eq (ParseTree.height_chain 41))]

/-- One level more than a reader follows is enough to lose a tree. -/
theorem ofJson_chain_eq_none :
    ParseTree.ofJson (ParseTree.chain 42).toJson = none ∧
      ¬ ∀ tree : ParseTree, tree.Fits → ParseTree.ofJson tree.toJson = some tree := by
  have hnone : ParseTree.ofJson (ParseTree.chain 42).toJson = none := by
    rw [ParseTree.ofJson_toJson (ParseTree.fits_chain 42), ParseTree.height_chain]
    rfl
  refine ⟨hnone, fun hall => ?_⟩
  rw [hall _ (ParseTree.fits_chain 42)] at hnone
  contradiction

end Seedling
