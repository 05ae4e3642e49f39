import Seedling.Proofs.Grammar.Building

/-!
Exactly when tables are accepted. The checks pass if and only if there is a rule to start with, all
numbers are in range, operands come before the atoms made of them, names differ, terminals are of
one mode and patterns can be read; the grammar is then the tables with a recognizer for each
pattern. Where the numbers are in range and the terminals of one mode, no error speaks of either.
-/

namespace Seedling.Grammar

variable {atoms : Array Atom} {rules : Array Rule} {root : RuleId} {g : Grammar}

/-- Every number is in range, and operands come before the atoms made of them. -/
structure Indexed (atoms : Array Atom) (rules : Array Rule) (root : RuleId) : Prop where
  root_lt : root < rules.size
  body_lt : ∀ rule ∈ rules, rule.body < atoms.size
  child_lt : ∀ {id : AtomId} {atom : Atom}, atoms[id]? = some atom → ∀ c ∈ atom.children, c < id
  rule_lt : ∀ {id : AtomId} {r : RuleId}, atoms[id]? = some (.rule r) → r < rules.size

/-- Text terminals and tokens do not both occur. -/
def OneMode (atoms : Array Atom) : Prop :=
  ¬((∃ a ∈ atoms, a.mode? = some .text) ∧ ∃ a ∈ atoms, a.mode? = some .tokens)

/-- Tables that pass all checks but the one for left recursion. -/
structure InOrder (atoms : Array Atom) (rules : Array Rule) (root : RuleId) : Prop extends
    Indexed atoms rules root where
  nonempty : 0 < rules.size
  names : (rules.toList.map Rule.name).Nodup
  oneMode : OneMode atoms
  parses : ∀ {p : String}, Atom.pattern p ∈ atoms → ∃ r, Regex.parse p = .ok r

def matcherOf : Atom → Option Automaton.Recognizer
  | .pattern p => patternMatcher p
  | _ => none

/-- The grammar of tables, each pattern with its recognizer. -/
def compiled (atoms : Array Atom) (rules : Array Rule) (root : RuleId) : Grammar :=
  ⟨atoms, rules, root, atoms.map matcherOf⟩

/-! ### Rules -/

theorem checkRules_eq_ok {n : Nat} {seen : List String} {rules : List Rule}
    (hbody : ∀ rule ∈ rules, rule.body < n) (hnodup : (rules.map Rule.name).Nodup)
    (hseen : ∀ rule ∈ rules, rule.name ∉ seen) : checkRules n seen rules = .ok () := by
  induction rules generalizing seen with
  | nil => rfl
  | cons first rest ih =>
      rw [List.forall_mem_cons] at hbody hseen
      rw [List.map_cons, List.nodup_cons] at hnodup
      rw [checkRules, if_neg hseen.1, if_neg (Nat.not_le_of_lt hbody.1)]
      refine ih hbody.2 hnodup.2 fun rule hrule hmem => ?_
      rcases List.mem_cons.1 hmem with heq | hmem
      · exact hnodup.1 (List.mem_map.2 ⟨rule, hrule, heq⟩)
      · exact hseen.2 rule hrule hmem

theorem checkRules_eq_error {n : Nat} {seen : List String} {rules : List Rule} {e : GrammarError}
    (hbody : ∀ rule ∈ rules, rule.body < n) (h : checkRules n seen rules = .error e) :
    ∃ name, e = .duplicateRule name := by
  induction rules generalizing seen with
  | nil => contradiction
  | cons first rest ih =>
      rw [List.forall_mem_cons] at hbody
      rw [checkRules] at h
      by_cases hfirst : first.name ∈ seen
      · rw [if_pos hfirst] at h
        exact ⟨first.name, (Except.error.inj h).symm⟩
      · rw [if_neg hfirst, if_neg (Nat.not_le_of_lt hbody.1)] at h
        exact ih hbody.2 h

/-! ### Modes -/

theorem isSome_label? {a : Atom} {mode : Mode} (h : a.mode? = some mode) :
    a.label?.isSome = true := by
  cases a with
  | literal | pattern | token => rfl
  | rule | sequence | choice | repetition | lookahead | discard | splice => contradiction

theorem firstTerminal_eq_none {mode : Mode} {atoms : List Atom} :
    firstTerminal mode atoms = none ↔ ¬∃ a ∈ atoms, a.mode? = some mode := by
  rw [firstTerminal, List.findSome?_eq_none_iff]
  constructor
  · rintro h ⟨a, ha, hmode⟩
    have hlabel := h a ha
    rw [if_pos hmode] at hlabel
    exact absurd (isSome_label? hmode) (by rw [hlabel]; decide)
  · intro h a ha
    exact if_neg fun hmode => h ⟨a, ha, hmode⟩

theorem checkModes_eq_ok_iff : checkModes atoms.toList = .ok () ↔ OneMode atoms := by
  have hnone : ∀ mode, firstTerminal mode atoms.toList = none ↔
      ¬∃ a ∈ atoms, a.mode? = some mode := by
    intro mode
    rw [firstTerminal_eq_none]
    simp only [Array.mem_toList_iff]
  rw [OneMode, not_and_or, ← hnone, ← hnone, checkModes]
  cases firstTerminal .text atoms.toList with
  | none => simp
  | some _ =>
      cases firstTerminal .tokens atoms.toList with
      | none => simp
      | some _ => simp

/-! ### Patterns -/

/-- A pattern that can be read is compiled, and nothing else can fail to be. -/
theorem compileMatcher_eq_ok {a : Atom} (h : ∀ p, a = .pattern p → ∃ r, Regex.parse p = .ok r) :
    compileMatcher a = .ok (matcherOf a) := by
  cases a with
  | pattern p =>
      obtain ⟨r, hr⟩ := h p rfl
      rw [compileMatcher, matcherOf, patternMatcher, hr]
  | literal | token | rule | sequence | choice | repetition | lookahead | discard | splice => rfl

theorem parse_of_compileMatcher {p : String} {m : Option Automaton.Recognizer}
    (h : compileMatcher (.pattern p) = .ok m) : ∃ r, Regex.parse p = .ok r := by
  rw [compileMatcher] at h
  cases hparse : Regex.parse p with
  | ok r => exact ⟨r, rfl⟩
  | error e =>
      rw [hparse] at h
      contradiction

theorem mapM_eq_pure {m : Type → Type} [Monad m] [LawfulMonad m] {α β : Type} {f : α → m β}
    {g : α → β} {l : List α} (h : ∀ a ∈ l, f a = pure (g a)) : l.mapM f = pure (l.map g) := by
  induction l with
  | nil => rfl
  | cons a l ih =>
      rw [List.forall_mem_cons] at h
      rw [List.mapM_cons, h.1, ih h.2, pure_bind, pure_bind, List.map_cons]

theorem compileMatcher_eq_error {a : Atom} {e : GrammarError} (h : compileMatcher a = .error e) :
    ∃ reason, e = .invalidPattern reason := by
  cases a with
  | pattern p =>
      rw [compileMatcher] at h
      split at h
      · contradiction
      · exact ⟨_, (Except.error.inj h).symm⟩
  | literal | token | rule | sequence | choice | repetition | lookahead | discard | splice =>
      contradiction

/-! ### All checks -/

theorem bind_eq_error {α β ε : Type} {x : Except ε α} {f : α → Except ε β} {e : ε} :
    x >>= f = .error e ↔ x = .error e ∨ ∃ a, x = .ok a ∧ f a = .error e := by
  cases x with
  | error e => simp [bind, Except.bind]
  | ok a => simp [bind, Except.bind]

theorem exists_of_mapM_eq_error {α β ε : Type} {f : α → Except ε β} {l : List α} {e : ε}
    (h : l.mapM f = .error e) : ∃ a ∈ l, f a = .error e := by
  induction l with
  | nil => contradiction
  | cons a l ih =>
      rw [List.mapM_cons] at h
      rcases bind_eq_error.1 h with ha | ⟨b, -, h⟩
      · exact ⟨a, List.mem_cons_self, ha⟩
      rcases bind_eq_error.1 h with hl | ⟨bs, -, h⟩
      · obtain ⟨a', ha', hf⟩ := ih hl
        exact ⟨a', List.mem_cons_of_mem _ ha', hf⟩
      · contradiction

theorem Indexed.checkAtoms_eq_ok (h : Indexed atoms rules root) :
    checkAtoms rules.size 0 atoms.toList = .ok () := by
  refine Grammar.checkAtoms_eq_ok fun i atom hatom => ?_
  have hat : atoms[i]? = some atom := by simpa using hatom
  rw [Nat.zero_add]
  exact ⟨h.child_lt hat, fun r heq => h.rule_lt (heq ▸ hat)⟩

theorem assemble_eq_of_root_lt (h : root < rules.size) :
    assemble atoms rules root = (do
      checkRules atoms.size [] rules.toList
      checkAtoms rules.size 0 atoms.toList
      checkModes atoms.toList
      let matchers ← atoms.toList.mapM compileMatcher
      return ⟨atoms, rules, root, matchers.toArray⟩) := by
  have hempty : ¬rules.isEmpty = true := by
    rw [Array.isEmpty, decide_eq_true_iff]
    exact Nat.ne_zero_of_lt h
  unfold assemble
  rw [if_neg hempty]
  simp only [if_neg (Nat.not_le_of_lt h)]

theorem InOrder.assemble_eq_ok (h : InOrder atoms rules root) :
    assemble atoms rules root = .ok (compiled atoms rules root) := by
  have hrules : checkRules atoms.size [] rules.toList = .ok () :=
    checkRules_eq_ok
      (fun rule hrule => h.body_lt rule (Array.mem_toList_iff.1 hrule)) h.names (by simp)
  have hmatchers : atoms.toList.mapM compileMatcher = .ok (atoms.toList.map matcherOf) := by
    refine mapM_eq_pure fun a ha => compileMatcher_eq_ok fun p heq => ?_
    exact h.parses (heq ▸ Array.mem_toList_iff.1 ha)
  rw [assemble_eq_of_root_lt h.root_lt, hrules, h.toIndexed.checkAtoms_eq_ok,
    checkModes_eq_ok_iff.2 h.oneMode, hmatchers]
  show Except.ok _ = _
  rw [compiled, ← Array.toList_map, Array.toArray_toList]

theorem inOrder_of_assemble (h : assemble atoms rules root = .ok g) : InOrder atoms rules root := by
  have hwell := assemble_wellFormed h
  obtain ⟨hroot, hrules, -, hmodes, matchers, hmatchers, rfl⟩ := assemble_eq_ok h
  refine ⟨⟨hroot, fun rule hrule => ?_, hwell.child_lt, hwell.rule_lt⟩, Nat.zero_lt_of_lt hroot,
    (nodup_of_checkRules hrules).1, checkModes_eq_ok_iff.1 hmodes, fun {p} hp => ?_⟩
  · exact body_lt_of_checkRules hrules rule (Array.mem_toList_iff.2 hrule)
  · obtain ⟨i, hi⟩ := List.getElem?_of_mem (Array.mem_toList_iff.2 hp)
    obtain ⟨m, -, hm⟩ := getElem?_mapM hmatchers hi
    exact parse_of_compileMatcher hm

theorem assemble_eq_ok_iff :
    assemble atoms rules root = .ok g ↔ InOrder atoms rules root ∧
      g = compiled atoms rules root := by
  constructor
  · intro h
    have horder := inOrder_of_assemble h
    exact ⟨horder, Except.ok.inj (h.symm.trans horder.assemble_eq_ok)⟩
  · rintro ⟨horder, rfl⟩
    exact horder.assemble_eq_ok

/-- Tables are accepted if and only if they are in order and no left recursion is hopeless. -/
theorem ofParts_eq_ok_iff :
    ofParts atoms rules root = .ok g ↔
      InOrder atoms rules root ∧ (compiled atoms rules root).leftEdge.unresolvable = none ∧
        g = compiled atoms rules root := by
  constructor
  · intro h
    obtain ⟨hassemble, hnone⟩ := assemble_of_ofParts h
    obtain ⟨horder, rfl⟩ := assemble_eq_ok_iff.1 hassemble
    exact ⟨horder, hnone, rfl⟩
  · rintro ⟨horder, hnone, rfl⟩
    refine bind_eq_ok.2 ⟨_, horder.assemble_eq_ok, ?_⟩
    rw [hnone]
    rfl

/-- With numbers in range and terminals of one mode, a name, a pattern or left recursion is
wrong. -/
theorem Indexed.ofParts_eq_error {e : GrammarError} (h : Indexed atoms rules root)
    (hmode : OneMode atoms) (he : ofParts atoms rules root = .error e) :
    (∃ name, e = .duplicateRule name) ∨ (∃ reason, e = .invalidPattern reason) ∨
      ∃ cycle, e = .unresolvableLeftRecursion cycle := by
  rcases bind_eq_error.1 he with he | ⟨g, -, he⟩
  · rw [assemble_eq_of_root_lt h.root_lt, h.checkAtoms_eq_ok, checkModes_eq_ok_iff.2 hmode] at he
    rcases bind_eq_error.1 he with he | ⟨⟨⟩, -, he⟩
    · exact .inl (checkRules_eq_error
        (fun rule hrule => h.body_lt rule (Array.mem_toList_iff.1 hrule)) he)
    change (atoms.toList.mapM compileMatcher >>= fun _ => .ok _) = _ at he
    rcases bind_eq_error.1 he with he | ⟨matchers, -, he⟩
    · obtain ⟨a, -, ha⟩ := exists_of_mapM_eq_error he
      exact .inr (.inl (compileMatcher_eq_error ha))
    · contradiction
  · split at he
    · exact .inr (.inr ⟨_, (Except.error.inj he).symm⟩)
    · contradiction

end Seedling.Grammar
