import Seedling.Proofs.Grammar.Alike
import Seedling.Proofs.Parse.Nesting
import Seedling.Proofs.Parse.Quotation
import Seedling.Proofs.Regex.LongestMatch
import Seedling.Proofs.Text.Utf8

/-!
How a text is parsed, phrase by phrase. `g.Takes depth form w rest Q` says that `form` matches
the characters `w` where `rest` follows them, wherever that is, with no more than `depth` rules
inside each other, and that `Q` holds of its trees; `g.Fails depth form rest` says that `form`
does not match in front of `rest`. `Yields` and `Refuses` say the same of a rule. There is a
rule of reasoning for each kind of expression, so that a derivation follows the grammar and no
offset is ever computed.
-/

namespace Seedling

open Text (encoded encoded_append encoded_cons)

namespace Regex

/-- The word is one of the expression, and no longer one stands in its place. -/
def Longest (r : Regex) (w rest : List UInt8) : Prop :=
  w ∈ r.language ∧ ∀ u, u <+: rest → w ++ u ∈ r.language → u = []

variable {r : Regex} {w rest : List UInt8}

theorem Longest.longestMatch_eq (h : r.Longest w rest) (before : List UInt8) :
    ∃ m, r.recognizer.longestMatch (before ++ (w ++ rest)) before.length = .ok m ∧
      m.stop = before.length + w.length := by
  have hword : ∀ k,
      ((before ++ (w ++ rest)).take (before.length + (w.length + k))).drop before.length =
      w ++ rest.take k := by
    intro k
    rw [List.take_length_add_append, List.drop_left, List.take_length_add_append]
  have hmem : before.length + w.length ∈ r.matchEnds (before ++ (w ++ rest)) before.length := by
    refine ⟨Nat.le_add_right _ _, by simp only [List.length_append]; omega, ?_⟩
    have hnone := hword 0
    rw [Nat.add_zero, List.take_zero, List.append_nil] at hnone
    rw [hnone]
    exact h.1
  have hspec := @longestMatch_isGreatest r (before ++ (w ++ rest)) before.length (by simp)
  cases hmatch : r.recognizer.longestMatch (before ++ (w ++ rest)) before.length with
  | error e =>
      rw [hmatch] at hspec
      rw [hspec] at hmem
      exact absurd hmem (Set.notMem_empty _)
  | ok m =>
      rw [hmatch] at hspec
      obtain ⟨-, ⟨-, hle, hin⟩, hgreatest⟩ := hspec
      obtain ⟨k, hk⟩ := Nat.exists_eq_add_of_le (hgreatest hmem)
      rw [hk, Nat.add_assoc, hword] at hin
      have hnil := h.2 _ (List.take_prefix k rest) hin
      have hlength := congrArg List.length hnil
      rw [List.length_take, List.length_nil] at hlength
      rw [hk] at hle
      simp only [List.length_append] at hle
      exact ⟨m, rfl, by omega⟩

theorem longestMatch_error (h : ∀ u, u <+: rest → u ∉ r.language) (before : List UInt8) :
    ∃ e, r.recognizer.longestMatch (before ++ rest) before.length = .error e := by
  have hspec := @longestMatch_isGreatest r (before ++ rest) before.length (by simp)
  cases hmatch : r.recognizer.longestMatch (before ++ rest) before.length with
  | error e => exact ⟨e, rfl⟩
  | ok m =>
      rw [hmatch] at hspec
      obtain ⟨-, ⟨hle, -, hin⟩, -⟩ := hspec
      obtain ⟨k, hk⟩ := Nat.exists_eq_add_of_le hle
      rw [hk, List.take_length_add_append, List.drop_left] at hin
      exact absurd hin (h _ (List.take_prefix k rest))

end Regex

/-- The subject that consists of some characters. -/
def subjectOf (cs : List Char) : Subject := .ofInput (.text (String.ofList cs))

/-- How many bytes some characters take. -/
def width (cs : List Char) : Nat := (encoded cs).length

@[simp] theorem width_append (v w : List Char) : width (v ++ w) = width v + width w := by
  rw [width, encoded_append, List.length_append, width, width]

theorem width_pos {w : List Char} (h : w ≠ []) : 0 < width w := by
  cases w with
  | nil => exact absurd rfl h
  | cons c w =>
      rw [width, encoded_cons, List.length_append]
      have hchar := List.length_pos_iff.2 (String.utf8EncodeChar_ne_nil (c := c))
      omega

theorem length_ofList (cs : List Char) : (Input.text (String.ofList cs)).length = width cs := by
  rw [width, ← Text.bytes_ofList, Text.length_bytes]
  rfl

def One (P : ParseTree → Prop) (trees : List ParseTree) : Prop := ∃ t, trees = [t] ∧ P t

/-- The trees are such trees with others behind them. -/
def Joined (Q Q' : List ParseTree → Prop) (trees : List ParseTree) : Prop :=
  ∃ u v, trees = u ++ v ∧ Q u ∧ Q' v

/-- The tree is a node over a text. -/
def Spells (name : String) (w : List Char) (t : ParseTree) : Prop :=
  ∃ trees, t = .node name trees ∧ t.text = String.ofList w

namespace Grammar

variable (g : Grammar) (d : Nat)

def Takes (form : Form) (w rest : List Char) (Q : List ParseTree → Prop) : Prop :=
  ∀ cs before, cs = before ++ (w ++ rest) →
    ∃ trees, Meaning g (subjectOf cs) (Within g (subjectOf cs) d) form (width before)
      (some ⟨width (before ++ w), trees, none⟩) ∧ Q trees

def Fails (form : Form) (rest : List Char) : Prop :=
  ∀ cs before, cs = before ++ rest →
    Meaning g (subjectOf cs) (Within g (subjectOf cs) d) form (width before) none

def Yields (r : RuleId) (w rest : List Char) (P : ParseTree → Prop) : Prop :=
  ∀ cs before, cs = before ++ (w ++ rest) →
    ∃ t, Within g (subjectOf cs) d r (width before) (some ⟨t, width (before ++ w)⟩) ∧ P t

def Refuses (r : RuleId) (rest : List Char) : Prop :=
  ∀ cs before, cs = before ++ rest → Within g (subjectOf cs) d r (width before) none

variable {g d} {d' : Nat} {id a : AtomId} {atoms : List AtomId} {form : Form} {r : RuleId}
  {w w' rest : List Char} {P : ParseTree → Prop} {Q Q' : List ParseTree → Prop}

theorem Yields.mono (h : g.Yields d r w rest P) (hle : d ≤ d') : g.Yields d' r w rest P := by
  intro cs before hcs
  obtain ⟨t, ht, hP⟩ := h cs before hcs
  exact ⟨t, ht.mono hle, hP⟩

theorem Yields.imp {P' : ParseTree → Prop} (h : g.Yields d r w rest P) (hP : ∀ t, P t → P' t) :
    g.Yields d r w rest P' := by
  intro cs before hcs
  obtain ⟨t, ht, hPt⟩ := h cs before hcs
  exact ⟨t, ht, hP t hPt⟩

theorem Refuses.mono (h : g.Refuses d r rest) (hle : d ≤ d') : g.Refuses d' r rest :=
  fun cs before hcs => (h cs before hcs).mono hle

theorem Takes.imp (h : g.Takes d form w rest Q) (hQ : ∀ trees, Q trees → Q' trees) :
    g.Takes d form w rest Q' := by
  intro cs before hcs
  obtain ⟨trees, hx, hQx⟩ := h cs before hcs
  exact ⟨trees, hx, hQ trees hQx⟩

/-! ### Atoms -/

theorem Takes.atom {atom : Atom} (hatom : g.atoms[id]? = some atom)
    (h : g.Takes d (.operator id atom) w rest Q) : g.Takes d (.atom id) w rest Q := by
  intro cs before hcs
  obtain ⟨trees, hx, hQ⟩ := h cs before hcs
  exact ⟨trees, .atom hatom hx, hQ⟩

theorem Fails.atom {atom : Atom} (hatom : g.atoms[id]? = some atom)
    (h : g.Fails d (.operator id atom) rest) : g.Fails d (.atom id) rest :=
  fun cs before hcs => .atom hatom (h cs before hcs)

theorem Takes.rule (hatom : g.atoms[id]? = some (.rule r)) (h : g.Yields d r w rest P) :
    g.Takes d (.atom id) w rest (One P) := by
  refine .atom hatom fun cs before hcs => ?_
  obtain ⟨t, ht, hP⟩ := h cs before hcs
  exact ⟨[t], .rule ht, t, rfl, hP⟩

theorem Fails.rule (hatom : g.atoms[id]? = some (.rule r)) (h : g.Refuses d r rest) :
    g.Fails d (.atom id) rest :=
  .atom hatom fun cs before hcs => .rule (h cs before hcs)

theorem Takes.discard (hatom : g.atoms[id]? = some (.discard a))
    (h : g.Takes d (.atom a) w rest Q) : g.Takes d (.atom id) w rest (· = []) := by
  refine .atom hatom fun cs before hcs => ?_
  obtain ⟨trees, hx, -⟩ := h cs before hcs
  exact ⟨[], .discard hx, rfl⟩

theorem Fails.discard (hatom : g.atoms[id]? = some (.discard a)) (h : g.Fails d (.atom a) rest) :
    g.Fails d (.atom id) rest :=
  .atom hatom fun cs before hcs => .discard (h cs before hcs)

/-! ### Sequences -/

theorem Takes.sequence (hatom : g.atoms[id]? = some (.sequence atoms))
    (h : g.Takes d (.items atoms) w rest Q) : g.Takes d (.atom id) w rest Q := by
  refine .atom hatom fun cs before hcs => ?_
  obtain ⟨trees, hx, hQ⟩ := h cs before hcs
  exact ⟨trees, .sequence hx, hQ⟩

theorem Takes.done : g.Takes d (.items []) [] rest (· = []) := by
  intro cs before _
  rw [List.append_nil]
  exact ⟨[], .done, rfl⟩

theorem Takes.item (hx : g.Takes d (.atom a) w (w' ++ rest) Q)
    (h : g.Takes d (.items atoms) w' rest Q') :
    g.Takes d (.items (a :: atoms)) (w ++ w') rest (Joined Q Q') := by
  intro cs before hcs
  rw [List.append_assoc] at hcs
  obtain ⟨u, hu, hQu⟩ := hx cs before hcs
  rw [← List.append_assoc] at hcs
  obtain ⟨v, hv, hQv⟩ := h cs (before ++ w) hcs
  rw [← List.append_assoc]
  exact ⟨u ++ v, .item hu hv, u, v, rfl, hQu, hQv⟩

theorem Takes.mark (hx : g.Takes d (.atom a) w (w' ++ rest) (· = []))
    (h : g.Takes d (.items atoms) w' rest Q) :
    g.Takes d (.items (a :: atoms)) (w ++ w') rest Q := by
  refine (Takes.item hx h).imp fun trees htrees => ?_
  obtain ⟨u, v, rfl, rfl, hv⟩ := htrees
  exact hv

theorem Takes.kept (hx : g.Takes d (.atom a) w (w' ++ rest) Q)
    (h : g.Takes d (.items atoms) w' rest (· = [])) :
    g.Takes d (.items (a :: atoms)) (w ++ w') rest Q := by
  refine (Takes.item hx h).imp fun trees htrees => ?_
  obtain ⟨u, v, rfl, hu, rfl⟩ := htrees
  rwa [List.append_nil]

theorem Takes.last (hx : g.Takes d (.atom a) w rest Q) : g.Takes d (.items [a]) w rest Q := by
  have h : g.Takes d (.items [a]) (w ++ []) rest Q := .kept hx .done
  rwa [List.append_nil] at h

theorem Fails.sequence (hatom : g.atoms[id]? = some (.sequence atoms))
    (h : g.Fails d (.items atoms) rest) : g.Fails d (.atom id) rest :=
  .atom hatom fun cs before hcs => .sequence (h cs before hcs)

theorem Fails.first (h : g.Fails d (.atom a) rest) : g.Fails d (.items (a :: atoms)) rest :=
  fun cs before hcs => .broken (h cs before hcs)

theorem Fails.later (hx : g.Takes d (.atom a) w rest Q) (h : g.Fails d (.items atoms) rest) :
    g.Fails d (.items (a :: atoms)) (w ++ rest) := by
  intro cs before hcs
  obtain ⟨trees, hx, -⟩ := hx cs before hcs
  rw [← List.append_assoc] at hcs
  exact .item hx (h cs (before ++ w) hcs)

/-! ### Choices -/

theorem Takes.choice (hatom : g.atoms[id]? = some (.choice atoms))
    (h : g.Takes d (.alternatives atoms) w rest Q) : g.Takes d (.atom id) w rest Q := by
  refine .atom hatom fun cs before hcs => ?_
  obtain ⟨trees, hx, hQ⟩ := h cs before hcs
  exact ⟨trees, .choice hx, hQ⟩

theorem Takes.taken (h : g.Takes d (.atom a) w rest Q) :
    g.Takes d (.alternatives (a :: atoms)) w rest Q := by
  intro cs before hcs
  obtain ⟨trees, hx, hQ⟩ := h cs before hcs
  exact ⟨trees, .taken hx, hQ⟩

theorem Takes.passed (hx : g.Fails d (.atom a) (w ++ rest))
    (h : g.Takes d (.alternatives atoms) w rest Q) :
    g.Takes d (.alternatives (a :: atoms)) w rest Q := by
  intro cs before hcs
  obtain ⟨trees, hy, hQ⟩ := h cs before hcs
  exact ⟨trees, .passed (hx cs before hcs) hy, hQ⟩

theorem Fails.choice (hatom : g.atoms[id]? = some (.choice atoms))
    (h : ∀ a ∈ atoms, g.Fails d (.atom a) rest) : g.Fails d (.atom id) rest := by
  refine .atom hatom fun cs before hcs => .choice ?_
  clear hatom
  induction atoms with
  | nil => exact .exhausted
  | cons a atoms ih =>
      rw [List.forall_mem_cons] at h
      exact .passed (h.1 cs before hcs) (ih h.2)

/-! ### Repetitions -/

theorem Takes.skip (hatom : g.atoms[id]? = some (.repetition a 0 (some 1)))
    (h : g.Fails d (.atom a) rest) : g.Takes d (.atom id) [] rest (· = []) := by
  refine .atom hatom fun cs before hcs => ?_
  rw [List.append_nil]
  exact ⟨[], .repetition (.enough rfl (h cs before hcs) (Nat.not_lt_zero 0)), rfl⟩

theorem Takes.once (hatom : g.atoms[id]? = some (.repetition a 0 (some 1)))
    (h : g.Takes d (.atom a) w rest Q) (hw : w ≠ []) : g.Takes d (.atom id) w rest Q := by
  refine .atom hatom fun cs before hcs => ?_
  obtain ⟨trees, hx, hQ⟩ := h cs before hcs
  have hlt : width before < width (before ++ w) := by
    rw [width_append]
    exact Nat.lt_add_of_pos_right (width_pos hw)
  exact ⟨trees ++ [], .repetition (.more rfl hx hlt (.full rfl)), by rwa [List.append_nil]⟩

theorem Takes.repetition {min : Nat} (hatom : g.atoms[id]? = some (.repetition a min none))
    (h : g.Takes d (.run a min none 0) w rest Q) : g.Takes d (.atom id) w rest Q := by
  refine .atom hatom fun cs before hcs => ?_
  obtain ⟨trees, hx, hQ⟩ := h cs before hcs
  exact ⟨trees, .repetition hx, hQ⟩

theorem Takes.run {α : Type} {word : α → List Char} {R : α → ParseTree → Prop}
    {min count : Nat} {xs : List α}
    (hitem : ∀ x ys, x :: ys <:+ xs →
      g.Takes d (.atom a) (word x) (ys.flatMap word ++ rest) (One (R x)))
    (hword : ∀ x ∈ xs, word x ≠ []) (hstop : g.Fails d (.atom a) rest)
    (hcount : min ≤ count + xs.length) :
    g.Takes d (.run a min none count) (xs.flatMap word) rest (List.Forall₂ R xs) := by
  intro cs before hcs
  induction xs generalizing before count with
  | nil =>
      rw [List.flatMap_nil, List.append_nil]
      refine ⟨[], .enough rfl (hstop cs before hcs) (Nat.not_lt_of_le ?_), .nil⟩
      simpa using hcount
  | cons x xs ih =>
      rw [List.flatMap_cons, List.append_assoc] at hcs
      obtain ⟨_, hx, t, rfl, ht⟩ := hitem x xs (List.suffix_refl _) cs before hcs
      rw [← List.append_assoc] at hcs
      rw [List.forall_mem_cons] at hword
      obtain ⟨trees, hxs, htrees⟩ :=
        @ih (count + 1) (fun y ys hys => hitem y ys (hys.trans (List.suffix_cons x xs))) hword.2
          (by rw [List.length_cons] at hcount; omega) _ hcs
      have hlt : width before < width (before ++ word x) := by
        rw [width_append]
        exact Nat.lt_add_of_pos_right (width_pos hword.1)
      rw [List.flatMap_cons, ← List.append_assoc]
      exact ⟨t :: trees, .more rfl hx hlt hxs, .cons ht htrees⟩

/-! ### Rules -/

theorem Yields.of_body {rule : Rule} (hrule : g.rules[r]? = some rule)
    (h : g.Takes d (.atom rule.body) w rest Q) (hQ : ∀ trees, Q trees → P (.node rule.name trees)) :
    g.Yields (d + 1) r w rest P := by
  intro cs before hcs
  obtain ⟨trees, hx, hQx⟩ := h cs before hcs
  exact ⟨.node rule.name trees, ⟨rule, hrule, _, hx, rfl⟩, hQ trees hQx⟩

theorem Refuses.of_body {rule : Rule} (hrule : g.rules[r]? = some rule)
    (h : g.Fails d (.atom rule.body) rest) : g.Refuses (d + 1) r rest :=
  fun cs before hcs => ⟨rule, hrule, none, h cs before hcs, rfl⟩

theorem Yields.of_splice {rule : Rule} (hrule : g.rules[r]? = some rule)
    (hatom : g.atoms[rule.body]? = some (.splice a)) (h : g.Takes d (.atom a) w rest (One P)) :
    g.Yields (d + 1) r w rest P := by
  intro cs before hcs
  obtain ⟨_, hx, t, rfl, ht⟩ := h cs before hcs
  exact ⟨t, ⟨rule, hrule, _, .atom hatom (.splice hx), rfl⟩, ht⟩

theorem Refuses.of_splice {rule : Rule} (hrule : g.rules[r]? = some rule)
    (hatom : g.atoms[rule.body]? = some (.splice a)) (h : g.Fails d (.atom a) rest) :
    g.Refuses (d + 1) r rest :=
  .of_body hrule (.atom hatom fun cs before hcs => .splice (h cs before hcs))

/-! ### Terminals -/

section Terminals

variable {cs before : List Char}

theorem drop_encoded (hcs : cs = before ++ rest) :
    (Text.bytes (String.ofList cs)).drop (width before) = encoded rest := by
  rw [Text.bytes_ofList, hcs, encoded_append, width, List.drop_left]

theorem Takes.literal {s : String} (hatom : g.atoms[id]? = some (.literal s)) :
    g.Takes d (.atom id) s.toList rest fun _ => True := by
  refine .atom hatom fun cs before hcs => ?_
  have hbytes : Text.bytes s = encoded s.toList := by rw [← Text.bytes_ofList, String.ofList_toList]
  have hstop : width before + s.utf8ByteSize = width (before ++ s.toList) := by
    rw [width_append, ← Text.length_bytes, hbytes]
    rfl
  have hx : Meaning g (subjectOf cs) (Within g (subjectOf cs) d) (.operator id (.literal s))
      (width before)
      (((subjectOf cs).matchTerminal g id (width before)).map fun m => .single m.1 m.2) := .literal
  simp only [subjectOf, Subject.ofInput, Subject.matchTerminal, hatom, drop_encoded hcs,
    hbytes, hstop, encoded_append,
    List.isPrefixOf_iff_prefix.2 (List.prefix_append (encoded s.toList) (encoded rest))] at hx
  exact ⟨_, hx, trivial⟩

theorem Fails.literal {s : String} (hatom : g.atoms[id]? = some (.literal s))
    (h : ¬ s.toList <+: rest) : g.Fails d (.atom id) rest := by
  refine .atom hatom fun cs before hcs => ?_
  have hbytes : Text.bytes s = encoded s.toList := by rw [← Text.bytes_ofList, String.ofList_toList]
  have hnot : (encoded s.toList).isPrefixOf (encoded rest) = false := by
    rw [Bool.eq_false_iff, Ne, List.isPrefixOf_iff_prefix]
    exact fun hprefix => h (Text.prefix_of_encoded hprefix)
  have hx : Meaning g (subjectOf cs) (Within g (subjectOf cs) d) (.operator id (.literal s))
      (width before)
      (((subjectOf cs).matchTerminal g id (width before)).map fun m => .single m.1 m.2) := .literal
  simp only [subjectOf, Subject.ofInput, Subject.matchTerminal, hatom, drop_encoded hcs,
    hbytes, hnot] at hx
  exact hx

variable {source : String} {regex : Regex}

/-- The match of a pattern is that of its expression. -/
theorem matchTerminal_pattern (hg : g.Compiled) (hatom : g.atoms[id]? = some (.pattern source))
    (hparse : Regex.parse source = .ok regex) (bytes : List UInt8)
    (lines : Source.LineIndex) (p : Nat) :
    (Subject.text bytes lines).matchTerminal g id p =
      (regex.recognizer.longestMatch bytes p).toOption.map fun m =>
        (m.stop, .leaf (g.label id) (Text.decode (Source.slice bytes p m.stop))
          (lines.position p)) := by
  have hmatcher : g.matcher? id = some regex.recognizer := by
    rw [hg.compiled hatom, patternMatcher, hparse]
  simp only [Subject.matchTerminal, hatom, hmatcher]
  cases hmatch : regex.recognizer.longestMatch bytes p with
  | error e => simp [hmatch, Except.toOption]
  | ok m => simp [hmatch, Except.toOption]

theorem Takes.pattern (hg : g.Compiled) (hatom : g.atoms[id]? = some (.pattern source))
    (hparse : Regex.parse source = .ok regex) (h : regex.Longest (encoded w) (encoded rest)) :
    g.Takes d (.atom id) w rest (One fun t => t.text = String.ofList w) := by
  refine .atom hatom fun cs before hcs => ?_
  have hbytes : Text.bytes (String.ofList cs) = encoded before ++ (encoded w ++ encoded rest) := by
    rw [Text.bytes_ofList, hcs, encoded_append, encoded_append]
  obtain ⟨m, hm, hstop⟩ := h.longestMatch_eq (encoded before)
  have hx : Meaning g (subjectOf cs) (Within g (subjectOf cs) d) (.operator id (.pattern source))
      (width before)
      (((subjectOf cs).matchTerminal g id (width before)).map fun m => .single m.1 m.2) :=
    .pattern
  have hend : m.stop = width (before ++ w) := by rw [hstop, width_append, width, width]
  have hslice : Text.decode (Source.slice (encoded before ++ (encoded w ++ encoded rest))
      (encoded before).length m.stop) = String.ofList w := by
    rw [hstop, Source.slice, List.take_length_add_append, List.take_left,
      List.drop_left, Text.decode, Text.decodeChars_encoded]
  rw [subjectOf, Subject.ofInput, matchTerminal_pattern hg hatom hparse, hbytes, width, hm,
    Except.toOption, Option.map_some, Option.map_some, hslice, hend, ← hbytes] at hx
  exact ⟨_, hx, _, rfl, ParseTree.text_leaf ..⟩

theorem Fails.pattern (hg : g.Compiled) (hatom : g.atoms[id]? = some (.pattern source))
    (hparse : Regex.parse source = .ok regex) (h : ∀ u, u <+: encoded rest → u ∉ regex.language) :
    g.Fails d (.atom id) rest := by
  refine .atom hatom fun cs before hcs => ?_
  have hbytes : Text.bytes (String.ofList cs) = encoded before ++ encoded rest := by
    rw [Text.bytes_ofList, hcs, encoded_append]
  obtain ⟨e, he⟩ := Regex.longestMatch_error h (encoded before)
  have hx : Meaning g (subjectOf cs) (Within g (subjectOf cs) d) (.operator id (.pattern source))
      (width before)
      (((subjectOf cs).matchTerminal g id (width before)).map fun m => .single m.1 m.2) :=
    .pattern
  rw [subjectOf, Subject.ofInput, matchTerminal_pattern hg hatom hparse, hbytes, width, he,
    Except.toOption, Option.map_none, Option.map_none, ← hbytes] at hx
  exact hx

theorem Yields.of_pattern (hg : g.Compiled) {rule : Rule} (hrule : g.rules[r]? = some rule)
    (hatom : g.atoms[rule.body]? = some (.pattern source)) (hparse : Regex.parse source = .ok regex)
    (h : regex.Longest (encoded w) (encoded rest)) :
    g.Yields (d + 1) r w rest (Spells rule.name w) := by
  refine .of_body hrule (.pattern hg hatom hparse h) fun trees htrees => ?_
  obtain ⟨t, rfl, ht⟩ := htrees
  exact ⟨[t], rfl, (ParseTree.forestText_singleton t).trans ht⟩

theorem Refuses.of_pattern (hg : g.Compiled) {rule : Rule} (hrule : g.rules[r]? = some rule)
    (hatom : g.atoms[rule.body]? = some (.pattern source)) (hparse : Regex.parse source = .ok regex)
    (h : ∀ u, u <+: encoded rest → u ∉ regex.language) : g.Refuses (d + 1) r rest :=
  .of_body hrule (.pattern hg hatom hparse h)

end Terminals

end Grammar

end Seedling
