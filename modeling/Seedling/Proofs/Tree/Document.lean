import Seedling.Proofs.Json.Decode
import Seedling.Tree.Print

/-!
Parse trees are read back from what is written of them, down to the depth that a reader follows.
A tree that is deeper is refused, whatever it holds.
-/

namespace Seedling

open Json (Written)

namespace Source.Position

/-- Numbers that 64 bits can hold. -/
structure Fits (p : Position) : Prop where
  offset : p.offset < UInt64.size
  line : p.line < UInt64.size
  column : p.column < UInt64.size

theorem written_document (p : Position) : Written p.document := by
  simp [document, Json.written_record]

theorem ofDocument_document {p : Position} (h : p.Fits) : ofDocument p.document = some p := by
  have hfields : Json.allFields ["offset", "line", "column"] p.document =
      some [.ofNat p.offset, .ofNat p.line, .ofNat p.column] :=
    Json.allFields_record rfl (by decide)
  simp [ofDocument, hfields, Json.asNat_ofNat h.offset, Json.asNat_ofNat h.line,
    Json.asNat_ofNat h.column]

end Source.Position

namespace ParseTree

theorem forestDocument_eq_map (trees : List ParseTree) :
    forestDocument trees = trees.map document := by
  induction trees with
  | nil => rfl
  | cons tree trees ih => rw [forestDocument, ih, List.map_cons]

theorem forestHeight_le_iff {trees : List ParseTree} {n : Nat} :
    forestHeight trees ≤ n ↔ ∀ tree ∈ trees, tree.height ≤ n := by
  induction trees with
  | nil => simp [forestHeight]
  | cons tree trees ih => rw [forestHeight, Nat.max_le, ih, List.forall_mem_cons]

theorem written_document (tree : ParseTree) : Written tree.document := by
  -- The children of a node are lower than the node.
  have hlevel (n : Nat) : ∀ tree : ParseTree, tree.height ≤ n → Written tree.document := by
    induction n with
    | zero => intro tree; cases tree <;> simp [height]
    | succ n ih =>
        intro tree hheight
        cases tree with
        | leaf symbol text position =>
            simp [document, Json.written_record, position.written_document]
        | node symbol children =>
            rw [height, Nat.add_le_add_iff_right, forestHeight_le_iff] at hheight
            have hchildren : Written (.array (forestDocument children)) := by
              rw [forestDocument_eq_map, Json.written_array, List.forall_mem_map]
              exact fun child hchild => ih child (hheight child hchild)
            simp [document, Json.written_record, hchildren]
  exact hlevel tree.height tree (Nat.le_refl _)

/-- The positions of all leaves are numbers that 64 bits can hold. -/
def Fits (tree : ParseTree) : Prop := ∀ l ∈ tree.leaves, l.2.2.Fits

theorem Fits.child {symbol : String} {children : List ParseTree} (h : Fits (.node symbol children))
    {child : ParseTree} (hchild : child ∈ children) : child.Fits := by
  intro l hl
  refine h l ?_
  rw [leaves]
  clear h
  induction children with
  | nil => contradiction
  | cons first rest ih =>
      rw [forestLeaves, List.mem_append]
      cases List.mem_cons.1 hchild with
      | inl heq => exact .inl (heq ▸ hl)
      | inr hmem => exact .inr (ih hmem)

/-- One tree that is too deep spoils a list. -/
theorem asList_forestDocument {f : Json → Option ParseTree} {n : Nat} {trees : List ParseTree}
    (h : ∀ tree ∈ trees, f tree.document = if tree.height ≤ n then some tree else none) :
    Json.asList f (.array (forestDocument trees)) =
      if forestHeight trees ≤ n then some trees else none := by
  rw [Json.asList]
  induction trees with
  | nil => rfl
  | cons tree trees ih =>
      obtain ⟨htree, htrees⟩ := List.forall_mem_cons.1 h
      rw [forestDocument, List.mapM_cons, htree, ih htrees, forestHeight]
      simp only [Nat.max_le]
      by_cases hfirst : tree.height ≤ n
      · by_cases hrest : forestHeight trees ≤ n <;> simp [hfirst, hrest]
      · simp [hfirst]

theorem height_pos (tree : ParseTree) : 0 < tree.height := by
  cases tree <;> simp [height]

/-- A tree is read if there are three brackets for each of its levels. -/
theorem ofDocument_document {tree : ParseTree} (h : tree.Fits) (room : Nat) :
    ofDocument room tree.document = if tree.height ≤ room / 3 then some tree else none := by
  induction room using Nat.strong_induction_on generalizing tree with
  | _ room ih =>
      rcases Nat.lt_or_ge room 3 with hlt | hge
      · have hpos := tree.height_pos
        rw [if_neg (by omega), ofDocument.eq_def]
        split
        · omega
        · rfl
      obtain ⟨room, rfl⟩ := Nat.exists_eq_add_of_le' hge
      have hlevels : (room + 3) / 3 = room / 3 + 1 := by omega
      rw [hlevels]
      cases tree with
      | leaf symbol text position =>
          have hposition :=
            Source.Position.ofDocument_document (h (symbol, text, position) (by simp [leaves]))
          have hfields : Json.allFields ["symbol", "text", "position"] (.record
              [("symbol", .ofString symbol), ("text", .ofString text),
                ("position", position.document)]) =
              some [.ofString symbol, .ofString text, position.document] :=
            Json.allFields_record rfl (by decide)
          simp [document, ofDocument, Json.asCase_record, hfields, Json.asString_ofString,
            hposition, height]
      | node symbol children =>
          have hchildren := asList_forestDocument fun child hchild =>
            ih room (by omega) (h.child hchild)
          have hfields : Json.allFields ["symbol", "children"] (.record
              [("symbol", .ofString symbol), ("children", .array (forestDocument children))]) =
              some [.ofString symbol, .array (forestDocument children)] :=
            Json.allFields_record rfl (by decide)
          by_cases hlow : forestHeight children ≤ room / 3 <;>
            simp [document, ofDocument, Json.asCase_record, hfields,
              Json.asString_ofString, hchildren, height, hlow]

/-- A tree is read back from its text exactly if it is not too deep. -/
theorem ofJson_toJson {tree : ParseTree} (h : tree.Fits) :
    ofJson tree.toJson = if tree.height ≤ 42 then some tree else none := by
  rw [ofJson, toJson, tree.written_document.read_text, Option.bind_some]
  exact ofDocument_document h Json.maxBrackets

end ParseTree

end Seedling
