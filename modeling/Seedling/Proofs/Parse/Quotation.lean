import Seedling.Proofs.Parse.Derivation

/-!
The leaves of a tree quote the input from left to right. What a rule discards is passed over,
and so is what stands beside a tree that takes the place of a node; if the grammar has neither,
the leaves quote the whole input.
-/

namespace Seedling

/-! ### Leaves -/

namespace ParseTree

theorem forestLeaves_append (trees trees' : List ParseTree) :
    forestLeaves (trees ++ trees') = forestLeaves trees ++ forestLeaves trees' := by
  induction trees with
  | nil => rfl
  | cons tree trees ih =>
      rw [List.cons_append, forestLeaves, ih, forestLeaves, List.append_assoc]

@[simp] theorem forestLeaves_singleton (tree : ParseTree) : forestLeaves [tree] = tree.leaves := by
  rw [forestLeaves, forestLeaves, List.append_nil]

theorem leaves_sublist {tree : ParseTree} {trees : List ParseTree} (h : tree ∈ trees) :
    tree.leaves.Sublist (forestLeaves trees) := by
  obtain ⟨before, after, rfl⟩ := List.append_of_mem h
  rw [forestLeaves_append, forestLeaves]
  exact (List.sublist_append_left ..).trans (List.sublist_append_right ..)

end ParseTree

theorem Piece.leaves_found_sublist (x : Piece) (name : String) :
    (x.found name).tree.leaves.Sublist (ParseTree.forestLeaves x.trees) := by
  rw [Piece.found]
  cases hsplice : x.splice.bind (x.trees[·]?) with
  | none =>
      show (ParseTree.node name x.trees).leaves.Sublist _
      rw [ParseTree.leaves]
  | some tree =>
      obtain ⟨i, -, htree⟩ := Option.bind_eq_some_iff.1 hsplice
      exact ParseTree.leaves_sublist (List.mem_of_getElem? htree)

theorem Piece.tree_found_of_splice {x : Piece} (h : x.splice = none) (name : String) :
    (x.found name).tree = .node name x.trees := by
  rw [Piece.found, h]
  rfl

/-! ### Quoting the input -/

/-- A leaf quotes the input from `start` to `stop`: bytes of a text, read as text, or a token. -/
def Quotes (start stop : Nat) (leaf : String × String × Source.Position) : Input → Prop
  | .text t =>
      start ≤ stop ∧ stop ≤ (Text.bytes t).length ∧
        leaf.2.1 = Text.decode (Source.slice (Text.bytes t) start stop) ∧
        leaf.2.2.offset = start ∧ leaf.2.2 = .ofOffset (Text.bytes t) start
  | .tokens ts =>
      stop = start + 1 ∧
        ∃ token, ts[start]? = some token ∧ leaf = (token.name, token.source, token.position)

/-- Leaves quote pieces of the input between `p` and `q`, each behind the one before it. -/
inductive Quoted (input : Input) : Nat → List (String × String × Source.Position) → Nat → Prop where
  | nil {p q} : p ≤ q → Quoted input p [] q
  | cons {p start stop leaf rest q} :
      p ≤ start → Quotes start stop leaf input → Quoted input stop rest q →
        Quoted input p (leaf :: rest) q

section Quotations

variable {g : Grammar} {input : Input} {p q q' : Nat}
  {leaves leaves' : List (String × String × Source.Position)}

theorem Quotes.le {leaf : String × String × Source.Position}
    (h : Quotes p q leaf input) : p ≤ q := by
  cases input with
  | text t => exact h.1
  | tokens ts => exact h.1 ▸ Nat.le_succ p

theorem Quoted.le (h : Quoted input p leaves q) : p ≤ q := by
  induction h with
  | nil hle => exact hle
  | cons hle hleaf _ ih => exact Nat.le_trans hle (Nat.le_trans hleaf.le ih)

theorem Quoted.of_le {p' : Nat} (h : Quoted input p leaves q) (hle : p' ≤ p) :
    Quoted input p' leaves q := by
  cases h with
  | nil hle' => exact .nil (Nat.le_trans hle hle')
  | cons hle' hleaf hrest => exact .cons (Nat.le_trans hle hle') hleaf hrest

theorem Quoted.append (h : Quoted input p leaves q) (h' : Quoted input q leaves' q') :
    Quoted input p (leaves ++ leaves') q' := by
  induction h with
  | nil hle => exact h'.of_le hle
  | cons hle hleaf _ ih => exact .cons hle hleaf (ih h')

theorem Quoted.sublist (h : Quoted input p leaves q) (hsub : leaves'.Sublist leaves) :
    Quoted input p leaves' q := by
  induction h generalizing leaves' with
  | nil hle =>
      rw [List.sublist_nil.1 hsub]
      exact .nil hle
  | cons hle hleaf _ ih =>
      -- What a leaf that is left out has quoted is passed over.
      cases hsub with
      | cons _ hsub => exact (ih hsub).of_le (Nat.le_trans hle hleaf.le)
      | cons_cons _ hsub => exact .cons hle hleaf (ih hsub)

theorem Stands.quoted {id : AtomId} {leaf : ParseTree} (h : Stands g input id p q leaf) :
    Quoted input p leaf.leaves q := by
  have hoffset : ∀ t : String, p ≤ q → q ≤ (Text.bytes t).length →
      (Source.Position.ofOffset (Text.bytes t) p).offset = p := fun t hle hlen =>
    List.length_take_of_le (Nat.le_trans hle hlen)
  cases h with
  | literal _ hle hlen hslice =>
      rw [ParseTree.leaves]
      refine .cons (Nat.le_refl p) ⟨hle, hlen, ?_, hoffset _ hle hlen, rfl⟩ (.nil (Nat.le_refl q))
      rw [hslice, Text.decode_bytes]
  | pattern _ _ hle hlen _ =>
      rw [ParseTree.leaves]
      exact .cons (Nat.le_refl p) ⟨hle, hlen, rfl, hoffset _ hle hlen, rfl⟩ (.nil (Nat.le_refl q))
  | token _ htoken hname =>
      rw [ParseTree.leaves, ← hname]
      exact .cons (Nat.le_refl p) ⟨rfl, _, htoken, rfl⟩ (.nil (Nat.le_refl _))

/-- The trees that a derivation leaves quote the piece that it derives. -/
theorem Derives.quoted {form : Form} {x : Piece} (h : Derives g input form p x) :
    Quoted input p (ParseTree.forestLeaves x.trees) x.stop := by
  induction h with
  | terminal hstands =>
      show Quoted input _ (ParseTree.forestLeaves [_]) _
      rw [ParseTree.forestLeaves_singleton]
      exact hstands.quoted
  | rule _ _ _ ih =>
      show Quoted input _ (ParseTree.forestLeaves [_]) _
      rw [ParseTree.forestLeaves_singleton]
      exact ih.sublist (Piece.leaves_found_sublist ..)
  | sequence _ _ ih | choice _ _ _ ih | repetition _ _ ih | splice _ _ ih | empty _ _ _ ih =>
      exact ih
  | lookahead | done | enough => exact .nil (Nat.le_refl _)
  | discard _ _ ih => exact .nil ih.le
  | item _ _ ihx ihy | more _ _ _ ihx ihy =>
      rw [Piece.append, ParseTree.forestLeaves_append]
      exact ihx.append ihy

theorem DerivesRule.quoted {r : RuleId} {f : Found} (h : DerivesRule g input r p f) :
    Quoted input p f.tree.leaves f.stop := by
  obtain ⟨rule, -, x, hx, rfl⟩ := h
  exact hx.quoted.sublist (x.leaves_found_sublist rule.name)

end Quotations

/-! ### Quoting the whole input -/

theorem drop_take_append_drop_take {α : Type} {p q r : Nat} (l : List α) (hpq : p ≤ q)
    (hqr : q ≤ r) : (l.take q).drop p ++ (l.take r).drop q = (l.take r).drop p := by
  have htake : l.take q = (l.take r).take q := by
    rw [List.take_take, Nat.min_eq_left hqr]
  have hdrop : (l.take r).drop q = ((l.take r).drop p).drop (q - p) := by
    rw [List.drop_drop, Nat.add_sub_cancel' hpq]
  rw [htake, hdrop, List.drop_take, List.take_append_drop]

namespace Input

/-- Every character of a text is one byte. -/
def IsAscii : Input → Prop
  | .text t => Text.IsAscii (Text.bytes t)
  | .tokens _ => True

def piece (input : Input) (p q : Nat) : String :=
  match input with
  | .text t => Text.decode (Source.slice (Text.bytes t) p q)
  | .tokens ts => String.join (((ts.take q).drop p).map Token.source)

def source : Input → String
  | .text t => t
  | .tokens ts => String.join (ts.map Token.source)

variable {input : Input} {p q r : Nat}

theorem piece_self (input : Input) (p : Nat) : input.piece p p = "" := by
  cases input with
  | text t =>
      rw [piece, Source.slice, List.drop_take_self]
      exact Text.decode_bytes ""
  | tokens ts => rw [piece, List.drop_take_self, List.map_nil, String.join_nil]

theorem piece_zero_length (input : Input) : input.piece 0 input.length = input.source := by
  cases input with
  | text t =>
      rw [piece, Source.slice, List.drop_zero, length, ← Text.length_bytes, List.take_length,
        Text.decode_bytes, source]
  | tokens ts => rw [piece, List.drop_zero, length, List.take_length, source]

/-- A piece is what its parts read. In plain text no character is torn apart. -/
theorem piece_append_piece (h : input.IsAscii) (hpq : p ≤ q) (hqr : q ≤ r) :
    input.piece p q ++ input.piece q r = input.piece p r := by
  cases input with
  | text t =>
      have hslice : ∀ start stop, Text.IsAscii (Source.slice (Text.bytes t) start stop) :=
        fun start stop b hb => h b (List.mem_of_mem_take (List.mem_of_mem_drop hb))
      rw [piece, piece, piece, ← Text.decode_append (hslice p q) (hslice q r), Source.slice,
        Source.slice, Source.slice, drop_take_append_drop_take _ hpq hqr]
  | tokens ts =>
      rw [piece, piece, piece, ← String.join_append, ← List.map_append,
        drop_take_append_drop_take _ hpq hqr]

end Input

/-- Nothing is discarded and nothing takes the place of a node. -/
def Grammar.Verbatim (g : Grammar) : Prop :=
  ∀ id a : AtomId, g.atoms[id]? ≠ some (.discard a) ∧ g.atoms[id]? ≠ some (.splice a)

def ParseTree.forestText (trees : List ParseTree) : String :=
  String.join ((forestLeaves trees).map fun l => l.2.1)

@[simp] theorem ParseTree.forestText_append (trees trees' : List ParseTree) :
    forestText (trees ++ trees') = forestText trees ++ forestText trees' := by
  rw [forestText, forestLeaves_append, List.map_append, String.join_append, forestText, forestText]

@[simp] theorem ParseTree.text_leaf (symbol text : String) (position : Source.Position) :
    (leaf symbol text position).text = text := by
  rw [ParseTree.text, leaves, List.map_singleton, String.join_cons, String.join_nil,
    String.append_empty]

@[simp] theorem ParseTree.forestText_singleton (tree : ParseTree) :
    forestText [tree] = tree.text := by
  rw [forestText, forestLeaves_singleton, text]

section Verbatim

variable {g : Grammar} {input : Input} {p : Nat}

theorem Stands.text {id : AtomId} {stop : Nat} {leaf : ParseTree}
    (h : Stands g input id p stop leaf) : leaf.text = input.piece p stop := by
  cases h with
  | literal _ _ _ hslice => rw [ParseTree.text_leaf, Input.piece, hslice, Text.decode_bytes]
  | pattern => rw [ParseTree.text_leaf, Input.piece]
  | token _ htoken _ =>
      obtain ⟨hlt, rfl⟩ := List.getElem?_eq_some_iff.1 htoken
      rw [ParseTree.text_leaf, Input.piece, List.drop_take, Nat.add_sub_cancel_left,
        List.take_one_drop_eq_of_lt_length hlt, List.map_singleton, String.join_cons,
        String.join_nil, String.append_empty]
      rfl

/-- Where nothing is left out, the trees of a derivation read what it derives. -/
theorem Derives.text (hg : g.Verbatim) (hinput : input.IsAscii) {form : Form} {x : Piece}
    (h : Derives g input form p x) :
    x.splice = none ∧ ParseTree.forestText x.trees = input.piece p x.stop := by
  induction h with
  | terminal hstands => exact ⟨rfl, (ParseTree.forestText_singleton _).trans hstands.text⟩
  | rule _ _ _ ih =>
      obtain ⟨hsplice, htext⟩ := ih
      refine ⟨rfl, (ParseTree.forestText_singleton _).trans ?_⟩
      rw [Piece.tree_found_of_splice hsplice, ParseTree.text, ParseTree.leaves]
      exact htext
  | sequence _ _ ih | choice _ _ _ ih | repetition _ _ ih | empty _ _ _ ih => exact ih
  | lookahead | done | enough => exact ⟨rfl, (Input.piece_self ..).symm⟩
  | discard hatom => exact absurd hatom (hg _ _).1
  | splice hatom => exact absurd hatom (hg _ _).2
  | item hx hy ihx ihy | more _ hx hy ihx ihy =>
      obtain ⟨hsplice, htext⟩ := ihx
      obtain ⟨hsplice', htext'⟩ := ihy
      rw [Piece.append]
      dsimp only
      rw [hsplice, hsplice', ParseTree.forestText_append, htext, htext',
        Input.piece_append_piece hinput hx.quoted.le hy.quoted.le]
      exact ⟨rfl, rfl⟩

theorem DerivesRule.text (hg : g.Verbatim) (hinput : input.IsAscii) {r : RuleId} {f : Found}
    (h : DerivesRule g input r p f) : f.tree.text = input.piece p f.stop := by
  obtain ⟨rule, -, x, hx, rfl⟩ := h
  obtain ⟨hsplice, htext⟩ := hx.text hg hinput
  rw [Piece.tree_found_of_splice hsplice, ParseTree.text, ParseTree.leaves]
  exact htext

end Verbatim

/-! ### Parsing -/

namespace Parser

variable {parser : Parser} {input : Input} {r : RuleId}

/-- The tree of a parse is that of a derivation of the whole input, and its leaves quote the
input in order. They quote all of it if the grammar leaves out nothing. -/
theorem derivesRule_of_run_eq_ok {ω : Type} {atoms : Array Atom} {rules : Array Rule}
    {root : RuleId} (hg : Grammar.ofParts atoms rules root = .ok parser.grammar)
    (hr : r < parser.grammar.rules.size) (observer : Observer ω) (log : ω) {tree : ParseTree}
    (h : (parser.run observer log r input).1 = .ok tree) :
    DerivesRule parser.grammar input r 0 ⟨tree, input.length⟩ ∧
      Quoted input 0 tree.leaves input.length ∧
      (parser.grammar.Verbatim → input.IsAscii → tree.text = input.source) := by
  obtain ⟨hwf, -⟩ := Grammar.ofParts_eq_ok hg
  suffices hderives : DerivesRule parser.grammar input r 0 ⟨tree, input.length⟩ by
    refine ⟨hderives, hderives.quoted, fun hverbatim hascii => ?_⟩
    rw [← input.piece_zero_length]
    exact hderives.text hverbatim hascii
  cases hrefusal : refusal parser.grammar parser.config input with
  | some e =>
      rw [run_refused hrefusal] at h
      contradiction
  | none =>
      rw [run_fst_eq observer log hrefusal] at h
      have hmeets := apply_nil_derived hwf hr (Nat.zero_le input.length) observer
        parser.config.maxDepth (.here 0) log
      have hstop : ∀ f, DerivedAt parser.grammar input r 0 (some f) → f.stop ≤ input.length :=
        fun f hf => ((hf f rfl (Nat.zero_le _)).bounds (Nat.zero_le _)).2
      rcases conclude_cases hmeets hstop with ⟨t, heq, ht⟩ | ⟨_, _, _, _, heq, -⟩ |
        ⟨_, _, _, heq, -⟩ | ⟨_, heq, -⟩
      · cases heq.symm.trans h
        exact ht _ rfl (Nat.zero_le _)
      all_goals
        cases heq.symm.trans h

/-- Two rules that grow inside each other at the start of `dd+d` leave none of it out. -/
theorem derivesRule_sums :
    ∃ tree, ((ofGrammar sums {}).run .silent () 0 (.text "dd+d")).1 = .ok tree ∧
      DerivesRule sums (.text "dd+d") 0 0 ⟨tree, 4⟩ ∧ tree.text = "dd+d" := by
  cases hresult : ((ofGrammar sums {}).run .silent () 0 (.text "dd+d")).1 with
  | error e =>
      have hok : ((ofGrammar sums {}).run .silent () 0 (.text "dd+d")).1.isOk = true := by
        decide +kernel
      rw [hresult] at hok
      contradiction
  | ok tree =>
      have hr : 0 < (ofGrammar sums {}).grammar.rules.size := by
        decide +kernel
      have hverbatim : sums.Verbatim := by
        refine fun id a => ⟨fun hatom => ?_, fun hatom => ?_⟩
        · simpa [sums] using Array.mem_of_getElem? hatom
        · simpa [sums] using Array.mem_of_getElem? hatom
      have hascii : Text.IsAscii (Text.bytes "dd+d") := by
        unfold Text.IsAscii
        decide +kernel
      obtain ⟨hderives, -, htext⟩ := derivesRule_of_run_eq_ok ofParts_sums hr .silent () hresult
      exact ⟨tree, rfl, hderives, htext hverbatim hascii⟩

end Parser

end Seedling
