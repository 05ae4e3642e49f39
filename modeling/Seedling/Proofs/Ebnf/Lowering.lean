import Seedling.Proofs.Ebnf.RoundTrip
import Seedling.Proofs.Ebnf.Vocabulary
import Seedling.Proofs.Grammar.Validation

/-!
A grammar and its lexer speak of the same tokens. Lowering an expression adds the terminals in
it, each as the atom that the vocabulary makes of it, and nothing else that could be taken for a
terminal; so the tokens in the grammar can be read off the productions, as the rules of the
lexer are.
-/

namespace Seedling.Ebnf

open Builder (Tidy Grows Composite)

/-! ### Adding an expression -/

section Adding

variable {target : String → RuleId} {v : Vocabulary} {b c d : Builder} {atom : Atom}
  {new more : List Atom}

/-- The atoms that an expression contributes to the terminals of a grammar. -/
def Vocabulary.leaves (v : Vocabulary) (names : List String)
    (terminals : List Terminal) : List Atom :=
  (names.filter v.tokens.contains).map .token ++ terminals.map v.terminalAtom

theorem Vocabulary.leaves_append (v : Vocabulary) (names names' : List String)
    (terminals terminals' : List Terminal) {a : Atom} :
    a ∈ v.leaves (names ++ names') (terminals ++ terminals') ↔
      a ∈ v.leaves names terminals ∨ a ∈ v.leaves names' terminals' := by
  simp only [leaves, List.filter_append, List.map_append, List.mem_append]
  tauto

/-- The builder `c` is `b` with some more atoms, whose terminals are `new`. -/
structure Adds (target : String → RuleId) (new : List Atom) (b c : Builder) : Prop extends
    Grows target b c where
  tidy : c.Tidy target
  terminal : ∀ {a : Atom}, a.mode?.isSome = true →
    (a ∈ c.resolved target ↔ a ∈ b.resolved target ∨ a ∈ new)

theorem Adds.refl (h : b.Tidy target) : Adds target [] b b :=
  ⟨.refl b, h, fun _ => by simp⟩

theorem Adds.trans (hbc : Adds target new b c) (hcd : Adds target more c d) {all : List Atom}
    (hall : ∀ a, a ∈ all ↔ a ∈ new ∨ a ∈ more) : Adds target all b d := by
  refine ⟨hbc.toGrows.trans hcd.toGrows, hcd.tidy, fun ha => ?_⟩
  rw [hcd.terminal ha, hbc.terminal ha, hall, or_assoc]

theorem Adds.size_le (h : Adds target new b c) : b.atoms.size ≤ c.atoms.size := by
  refine Nat.le_of_not_lt fun hlt => ?_
  obtain ⟨a, ha⟩ : ∃ a, (b.resolved target)[c.atoms.size]? = some a :=
    ⟨_, Array.getElem?_eq_getElem (by simpa using hlt)⟩
  have hc := (Array.getElem?_eq_some_iff.1 (h.table ha)).1
  rw [Builder.size_resolved] at hc
  exact Nat.lt_irrefl _ hc

theorem Adds.addTerminal (h : b.Tidy target) (hmode : atom.mode?.isSome = true) :
    Adds target [atom] b (b.addAtom atom).2 := by
  have hrule : ∀ r, atom ≠ .rule r := by
    rintro r rfl
    contradiction
  have hchildren : atom.children = [] := by
    cases atom with
    | literal | pattern | token => rfl
    | rule | sequence | choice | repetition | lookahead | discard | splice => contradiction
  refine ⟨h.grows_addAtom atom, h.addAtom hrule (by simp [hchildren]), fun ha => ?_⟩
  rw [h.resolved_addAtom, Array.mem_push, List.mem_singleton]

theorem Adds.addRef (h : b.Tidy target) (name : String) : Adds target [] b (b.addRef name).2 := by
  refine ⟨h.grows_addRef name, h.addRef name, fun {a} ha => ?_⟩
  have hne : a ≠ .rule (target name) := by
    rintro rfl
    contradiction
  rw [h.resolved_addRef, Array.mem_push]
  simp [hne]

theorem Adds.addComposite (h : Adds target new b c) (hatom : Composite atom)
    (hchildren : ∀ id ∈ atom.children, id < c.atoms.size) :
    Adds target new b (c.addAtom atom).2 := by
  refine ⟨h.toGrows.trans (h.tidy.grows_addAtom atom), h.tidy.addAtom hatom.2 hchildren,
    fun {a} ha => ?_⟩
  have hne : a ≠ atom := by
    rintro rfl
    rw [hatom.1] at ha
    contradiction
  rw [h.tidy.resolved_addAtom, Array.mem_push, h.terminal ha]
  simp [hne]

/-- What lowering adds, and the atom it makes. -/
structure Lowers (target : String → RuleId) (new : List Atom) (b : Builder) (r : AtomId × Builder) :
    Prop extends Adds target new b r.2 where
  id_lt : r.1 < r.2.atoms.size

theorem Adds.lowers (h : Adds target new b (c.addAtom atom).2) :
    Lowers target new b (c.addAtom atom) where
  toAdds := h
  id_lt := by
    show c.atoms.size < (c.atoms.push atom).size
    rw [Array.size_push]
    exact Nat.lt_succ_self _

theorem Lowers.wrap {r : AtomId × Builder} (h : Lowers target new b r)
    (hatom : Composite atom) (hchildren : atom.children = [r.1]) :
    Lowers target new b (r.2.addAtom atom) := by
  refine (h.toAdds.addComposite hatom ?_).lowers
  rw [hchildren, List.forall_mem_singleton]
  exact h.id_lt

theorem mode?_terminalAtom (v : Vocabulary) (t : Terminal) :
    (v.terminalAtom t).mode? = some v.mode := by
  unfold Vocabulary.terminalAtom
  cases v.mode with
  | tokens => rfl
  | text => cases t <;> rfl

mutual

theorem lower_adds (v : Vocabulary) (e : Expr) {b : Builder} (hb : b.Tidy target) :
    Lowers target (v.leaves e.names e.terminals) b (v.lower e b) := by
  cases e with
  | name n =>
      rw [Vocabulary.lower, Expr.names, Expr.terminals]
      by_cases hn : v.tokens.contains n = true
      · have hleaves : v.leaves [n] [] = [.token n] := by simp [Vocabulary.leaves, hn]
        rw [if_pos hn, hleaves]
        exact (Adds.addTerminal hb rfl).lowers
      · have hleaves : v.leaves [n] [] = [] := by simp [Vocabulary.leaves, hn]
        rw [if_neg hn, hleaves]
        refine ⟨Adds.addRef hb n, ?_⟩
        show b.atoms.size < (b.atoms.push _).size
        rw [Array.size_push]
        exact Nat.lt_succ_self _
  | terminal t =>
      rw [Vocabulary.lower, Expr.names, Expr.terminals]
      have hleaves : v.leaves [] [t] = [v.terminalAtom t] := by simp [Vocabulary.leaves]
      rw [hleaves]
      exact (Adds.addTerminal hb (by rw [mode?_terminalAtom]; rfl)).lowers
  | sequence items =>
      rw [Vocabulary.lower, Expr.names, Expr.terminals]
      obtain ⟨hadds, hlt⟩ := lowerAll_adds v items hb
      refine Adds.lowers (hadds.addComposite ⟨rfl, by simp⟩ ?_)
      exact hlt
  | choice items =>
      rw [Vocabulary.lower, Expr.names, Expr.terminals]
      obtain ⟨hadds, hlt⟩ := lowerAll_adds v items hb
      refine Adds.lowers (hadds.addComposite ⟨rfl, by simp⟩ ?_)
      exact hlt
  | repetition e min max =>
      rw [Vocabulary.lower, Expr.names, Expr.terminals]
      exact (lower_adds v e hb).wrap ⟨rfl, by simp⟩ rfl
  | lookahead e positive =>
      rw [Vocabulary.lower, Expr.names, Expr.terminals]
      exact (lower_adds v e hb).wrap ⟨rfl, by simp⟩ rfl
  | discard e =>
      rw [Vocabulary.lower, Expr.names, Expr.terminals]
      exact (lower_adds v e hb).wrap ⟨rfl, by simp⟩ rfl
  | splice e =>
      rw [Vocabulary.lower, Expr.names, Expr.terminals]
      exact (lower_adds v e hb).wrap ⟨rfl, by simp⟩ rfl

theorem lowerAll_adds (v : Vocabulary) (es : List Expr) {b : Builder} (hb : b.Tidy target) :
    Adds target (v.leaves (Expr.allNames es) (Expr.allTerminals es)) b (v.lowerAll es b).2 ∧
      ∀ id ∈ (v.lowerAll es b).1, id < (v.lowerAll es b).2.atoms.size := by
  cases es with
  | nil =>
      rw [Vocabulary.lowerAll, Expr.allNames, Expr.allTerminals]
      exact ⟨Adds.refl hb, List.forall_mem_nil _⟩
  | cons e es =>
      rw [Vocabulary.lowerAll, Expr.allNames, Expr.allTerminals]
      have hfirst := lower_adds v e hb
      obtain ⟨hrest, hlt⟩ := lowerAll_adds v es hfirst.tidy
      refine ⟨hfirst.toAdds.trans hrest fun a => v.leaves_append .., ?_⟩
      rw [List.forall_mem_cons]
      exact ⟨Nat.lt_of_lt_of_le hfirst.id_lt hrest.size_le, hlt⟩

end

/-! ### Adding rules -/

/-- The builder `c` is `b` with the rules of some productions, which bring all the terminals
that are new. -/
structure AddsRules (target : String → RuleId) (v : Vocabulary) (ps : List Production)
    (b c : Builder) :
    Prop where
  tidy : c.Tidy target
  body_lt : ∀ rule ∈ c.rules, rule.body < c.atoms.size
  size : c.rules.size = b.rules.size + ps.length
  start : c.start = b.start
  terminal : ∀ {a : Atom}, a.mode?.isSome = true →
    (a ∈ c.resolved target ↔
      a ∈ b.resolved target ∨ ∃ p ∈ ps, a ∈ v.leaves p.body.names p.body.terminals)

theorem lowerRule_adds (v : Vocabulary) (p : Production) (hb : b.Tidy target)
    (hbody : ∀ rule ∈ b.rules, rule.body < b.atoms.size) :
    AddsRules target v [p] b (v.lowerRule b p) := by
  have hlowers : Lowers target (v.leaves p.body.names p.body.terminals) b (v.lower p.body b) :=
    lower_adds v p.body hb
  have hrules : (v.lowerRule b p).rules = b.rules.push ⟨p.name, (v.lower p.body b).1⟩ := by
    rw [← hlowers.rules]
    rfl
  refine ⟨⟨hlowers.tidy.pending_lt, hlowers.tidy.child_lt, hlowers.tidy.ref⟩,
    fun rule hrule => ?_, ?_, hlowers.start, fun ha => ?_⟩
  · rw [hrules, Array.mem_push] at hrule
    rcases hrule with hrule | rfl
    · exact Nat.lt_of_lt_of_le (hbody rule hrule) hlowers.size_le
    · exact hlowers.id_lt
  · rw [hrules, Array.size_push]
    rfl
  · simp only [List.mem_singleton, exists_eq_left]
    exact hlowers.terminal ha

/-- By induction on the productions; what the first one adds is there for the others. -/
theorem foldl_lowerRule_adds (v : Vocabulary) (ps : List Production) (hb : b.Tidy target)
    (hbody : ∀ rule ∈ b.rules, rule.body < b.atoms.size) :
    AddsRules target v ps b (ps.foldl v.lowerRule b) := by
  induction ps generalizing b with
  | nil => exact ⟨hb, hbody, rfl, rfl, fun _ => by simp⟩
  | cons p ps ih =>
      have hfirst := lowerRule_adds v p hb hbody
      have hrest := ih hfirst.tidy hfirst.body_lt
      refine ⟨hrest.tidy, hrest.body_lt, ?_, hrest.start.trans hfirst.start, fun ha => ?_⟩
      · rw [List.foldl_cons, hrest.size, hfirst.size, List.length_singleton, List.length_cons,
          Nat.add_assoc, Nat.add_comm 1]
      · rw [List.foldl_cons, hrest.terminal ha, hfirst.terminal ha]
        simp only [List.mem_cons, List.not_mem_nil, or_false, exists_eq_left,
          exists_eq_or_imp, or_assoc]

end Adding

end Seedling.Ebnf

/-! ### Building -/

namespace Seedling.Builder

variable {b : Builder}

theorem find_eq_error {name : String} {e : GrammarError} (h : b.find name = .error e) :
    e = .undefinedRule name := by
  rw [find] at h
  split at h
  · contradiction
  · exact (Except.error.inj h).symm

/-- A name is defined twice or not at all, or the tables are checked with all references
resolved. -/
theorem build_cases (hstart : b.start = none) :
    (∃ name, b.build = .error (.duplicateRule name)) ∨
    (∃ name, b.build = .error (.undefinedRule name)) ∨
      ∃ rs, (b.pending.toList.map Prod.snd).mapM b.find = .ok rs ∧
        b.build = Grammar.ofParts (b.resolved b.targetOf) b.rules 0 := by
  unfold build
  rw [resolve_eq, hstart]
  cases duplicate? [] b.rules.toList with
  | some name => exact .inl ⟨name, rfl⟩
  | none =>
      cases hfound : (b.pending.toList.map Prod.snd).mapM b.find with
      | error e =>
          obtain ⟨name, -, hname⟩ := Grammar.exists_of_mapM_eq_error hfound
          rw [find_eq_error hname]
          exact .inr (.inl ⟨name, rfl⟩)
      | ok rs => exact .inr (.inr ⟨rs, rfl, rfl⟩)

theorem Tidy.target_lt (h : b.Tidy b.targetOf) {rs : List RuleId}
    (hfound : (b.pending.toList.map Prod.snd).mapM b.find = .ok rs) {id : AtomId} {r : RuleId}
    (hid : (b.resolved b.targetOf)[id]? = some (.rule r)) : r < b.rules.size := by
  obtain ⟨p, hp, rfl⟩ := h.ref hid
  obtain ⟨r, hr⟩ := find_of_mapM hfound (List.mem_map_of_mem hp)
  obtain ⟨rfl, hlt⟩ := find_eq_ok hr
  exact hlt

end Seedling.Builder

namespace Seedling.Ebnf

open Builder (Tidy)

variable {ps : List Production} {target : String → RuleId} {l : Language}

def ruleBuilder (ps : List Production) : Builder :=
  (ps.filter (!·.isToken)).foldl (Vocabulary.ofProductions ps).lowerRule .empty

theorem tidy_empty : Tidy target .empty :=
  ⟨List.forall_mem_nil _, fun hid => by contradiction, fun hid => by contradiction⟩

theorem ruleBuilder_adds (target : String → RuleId) (ps : List Production) :
    AddsRules target (.ofProductions ps) (ps.filter (!·.isToken)) .empty (ruleBuilder ps) :=
  foldl_lowerRule_adds _ _ tidy_empty fun _ hrule => absurd hrule (Array.not_mem_empty _)

theorem mem_resolved {a : Atom} (ha : a.mode?.isSome = true) :
    a ∈ (ruleBuilder ps).resolved target ↔ ∃ p ∈ ps, p.isToken = false ∧
      a ∈ (Vocabulary.ofProductions ps).leaves p.body.names p.body.terminals := by
  have hempty : a ∉ Builder.resolved target .empty := Array.not_mem_empty a
  rw [(ruleBuilder_adds target ps).terminal ha]
  simp [hempty, and_assoc]

/-- A grammar is all text or all tokens, as its vocabulary is. -/
theorem mode_of_mem_leaves {v : Vocabulary} {names : List String} {terminals : List Terminal}
    {a : Atom} (h : a ∈ v.leaves names terminals) : a.mode? = some v.mode := by
  rcases List.mem_append.1 h with h | h
  · obtain ⟨name, hname, rfl⟩ := List.mem_map.1 h
    have hmem : name ∈ v.tokens := of_decide_eq_true (List.mem_filter.1 hname).2
    have hne : v.tokens.isEmpty = false := List.isEmpty_eq_false_iff_exists_mem.2 ⟨name, hmem⟩
    rw [Vocabulary.mode, hne]
    rfl
  · obtain ⟨t, -, rfl⟩ := List.mem_map.1 h
    exact mode?_terminalAtom v t

theorem mode_of_mem_resolved {a : Atom} {mode : Mode} (hmode : a.mode? = some mode)
    (h : a ∈ (ruleBuilder ps).resolved target) : mode = (Vocabulary.ofProductions ps).mode := by
  obtain ⟨p, -, -, hleaf⟩ := (mem_resolved (by rw [hmode]; rfl)).1 h
  exact Option.some.inj (hmode.symm.trans (mode_of_mem_leaves hleaf))

theorem oneMode_resolved : Grammar.OneMode ((ruleBuilder ps).resolved target) := by
  rintro ⟨⟨a, ha, hmode⟩, b, hb, hmode'⟩
  have heq := (mode_of_mem_resolved hmode ha).trans (mode_of_mem_resolved hmode' hb).symm
  contradiction

theorem indexed_resolved (hne : ps.filter (!·.isToken) ≠ []) {rs : List RuleId}
    (hfound : ((ruleBuilder ps).pending.toList.map Prod.snd).mapM (ruleBuilder ps).find = .ok rs) :
    Grammar.Indexed ((ruleBuilder ps).resolved (ruleBuilder ps).targetOf)
      (ruleBuilder ps).rules 0 := by
  have hadds := ruleBuilder_adds (ruleBuilder ps).targetOf ps
  refine ⟨?_, fun rule hrule => ?_, hadds.tidy.child_lt, hadds.tidy.target_lt hfound⟩
  · rw [hadds.size]
    exact Nat.lt_of_lt_of_le (List.length_pos_iff.2 hne) (Nat.le_add_left _ _)
  · rw [Builder.size_resolved]
    exact hadds.body_lt rule hrule

/-! ### Languages -/

/-- Errors about how tables hang together. -/
def isTableError : GrammarError → Bool
  | .mixedModes .. => true
  | .invalidReference .. => true
  | _ => false

/-- Productions are refused before anything is built, or their rules are built beside their
lexer. -/
theorem ofProductions_cases (ps : List Production) :
    (∃ e, Language.ofProductions ps = .error e ∧ isTableError e = false) ∨
      (ps.map Production.name).Nodup ∧ ps.filter (!·.isToken) ≠ [] ∧
        ∃ lexer, lexerOf (.ofProductions ps) ps = .ok lexer ∧
          Language.ofProductions ps = (ruleBuilder ps).build >>= fun g => .ok ⟨g, lexer⟩ := by
  unfold Language.ofProductions
  cases hduplicate : duplicate? [] ps with
  | some name => exact .inl ⟨.duplicateRule name, rfl, rfl⟩
  | none =>
      by_cases hempty : (ps.filter (!·.isToken)).isEmpty = true
      · simp only [if_pos hempty]
        exact .inl ⟨.empty, rfl, rfl⟩
      simp only [if_neg hempty]
      cases hlexer : lexerOf (.ofProductions ps) ps with
      | error e => exact .inl ⟨.invalidPattern e, rfl, rfl⟩
      | ok lexer =>
          refine .inr ⟨(nodup_of_duplicate? hduplicate).1, fun hnil => hempty ?_, lexer, rfl, rfl⟩
          rw [hnil]
          rfl

/-- The rules are refused for other reasons than their tables, or their tables make the grammar. -/
theorem build_ruleBuilder (hne : ps.filter (!·.isToken) ≠ []) :
    (∃ e, (ruleBuilder ps).build = .error e ∧ isTableError e = false) ∨
      ∃ g target, (ruleBuilder ps).build = .ok g ∧ g.atoms = (ruleBuilder ps).resolved target := by
  rcases Builder.build_cases (ruleBuilder_adds (ruleBuilder ps).targetOf ps).start with
    ⟨name, hbuild⟩ | ⟨name, hbuild⟩ | ⟨rs, hfound, hbuild⟩
  · exact .inl ⟨_, hbuild, rfl⟩
  · exact .inl ⟨_, hbuild, rfl⟩
  · rw [hbuild]
    cases hparts : Grammar.ofParts ((ruleBuilder ps).resolved (ruleBuilder ps).targetOf)
        (ruleBuilder ps).rules 0 with
    | error e =>
        refine .inl ⟨e, rfl, ?_⟩
        rcases (indexed_resolved hne hfound).ofParts_eq_error oneMode_resolved hparts with
          ⟨name, rfl⟩ | ⟨reason, rfl⟩ | ⟨cycle, rfl⟩
        · rfl
        · rfl
        · rfl
    | ok g =>
        obtain ⟨-, -, rfl⟩ := Grammar.ofParts_eq_ok_iff.1 hparts
        exact .inr ⟨_, _, rfl, rfl⟩

theorem ofProductions_eq_ok (h : Language.ofProductions ps = .ok l) :
    (ps.map Production.name).Nodup ∧ lexerOf (.ofProductions ps) ps = .ok l.lexer ∧
      ∃ target, l.grammar.atoms = (ruleBuilder ps).resolved target := by
  rcases ofProductions_cases ps with ⟨e, he, -⟩ | ⟨hnodup, hne, lexer, hlexer, hbuilt⟩
  · cases he.symm.trans h
  · obtain ⟨g, hg, hl⟩ := Grammar.bind_eq_ok.1 (hbuilt.symm.trans h)
    cases hl
    refine ⟨hnodup, hlexer, ?_⟩
    rcases build_ruleBuilder hne with ⟨e, he, -⟩ | ⟨g', target, hg', hatoms⟩
    · cases he.symm.trans hg
    · cases hg'.symm.trans hg
      exact ⟨target, hatoms⟩

theorem ofProductions_eq_error {e : GrammarError} (h : Language.ofProductions ps = .error e) :
    isTableError e = false := by
  rcases ofProductions_cases ps with ⟨e', he, hother⟩ | ⟨-, hne, lexer, -, hbuilt⟩
  · cases he.symm.trans h
    exact hother
  · rcases Grammar.bind_eq_error.1 (hbuilt.symm.trans h) with hg | ⟨g, -, hg⟩
    · rcases build_ruleBuilder hne with ⟨e', he, hother⟩ | ⟨g, target, hok, -⟩
      · cases he.symm.trans hg
        exact hother
      · cases hok.symm.trans hg
    · contradiction

/-- Text that cannot be read is no more than that, as the grammar of grammar text is in order. -/
theorem productions_eq_error {text : String} {e : GrammarError} (h : productions text = .error e) :
    ∃ location expected, e = .malformed location expected := by
  obtain ⟨g, hmeta, -⟩ := exists_meta
  cases hparse : g.parse (.text text) with
  | ok tree =>
      simp only [productions, hmeta, bind, Except.bind, hparse] at h
      contradiction
  | error reason =>
      simp only [productions, hmeta, bind, Except.bind, hparse] at h
      exact ⟨_, _, (Except.error.inj h).symm⟩

theorem ofText_eq_error {text : String} {e : GrammarError} (h : Language.ofText text = .error e) :
    isTableError e = false := by
  rcases Grammar.bind_eq_error.1 h with h | ⟨ps, -, h⟩
  · obtain ⟨location, expected, rfl⟩ := productions_eq_error h
    rfl
  · exact ofProductions_eq_error h

/-! ### Grammar and lexer -/

theorem terminalAtom_eq (h : UsesTokens ps) (t : Terminal) :
    (Vocabulary.ofProductions ps).terminalAtom t =
      .token (((named? ps t).map Production.name).getD t.tokenName) := by
  rw [← Vocabulary.declared?_eq]
  unfold Vocabulary.terminalAtom
  rw [Vocabulary.mode_eq_tokens.2 h]

/-- A language as some productions describe it, with its grammar and its lexer in step. -/
structure InStep (ps : List Production) (l : Language) : Prop where
  /-- There is a lexer if tokens are used and there is a rule for any of them. -/
  lexer : l.lexer.isSome = true ↔ UsesTokens ps ∧ lexemes ps ≠ []
  /-- Its names are those of the terminals without a name and of the declared tokens, in this
  order. -/
  names : ∀ lexer ∈ l.lexer, lexer.names =
    (unnamed ps).map Terminal.tokenName ++ (ps.filter Production.isToken).map Production.name
  nodup : ∀ lexer ∈ l.lexer, lexer.names.Nodup
  /-- The tokens of the grammar are known to the lexer or have no production. -/
  known : ∀ name, .token name ∈ l.grammar.atoms →
    (∃ lexer ∈ l.lexer, name ∈ lexer.names) ∨ IsUndeclared ps name
  /-- The lexer has no name for a terminal that the grammar does not use. -/
  used : ∀ lexer ∈ l.lexer, ∀ t ∈ unnamed ps, .token t.tokenName ∈ l.grammar.atoms
  /-- Without tokens all terminals are text, and with tokens none is. -/
  mode : ∀ a ∈ l.grammar.atoms, ∀ mode, a.mode? = some mode → (mode = .tokens ↔ UsesTokens ps)

theorem mem_lexemes_of_token {name : String} (huses : UsesTokens ps)
    (h : .token name ∈ (ruleBuilder ps).resolved target) :
    name ∈ lexemes ps ∨ IsUndeclared ps name := by
  have hdeclared : ∀ {p}, p ∈ ps → p.isToken = true → p.name ∈ lexemes ps := fun hp htoken =>
    List.mem_append_right _ (List.mem_map_of_mem (List.mem_filter.2 ⟨hp, htoken⟩))
  obtain ⟨p, hp, hrule, hleaf⟩ := (mem_resolved rfl).1 h
  rcases List.mem_append.1 hleaf with hleaf | hleaf
  · -- a name in the rule that stands for a token
    obtain ⟨name', hname', heq⟩ := List.mem_map.1 hleaf
    cases heq
    rcases Vocabulary.mem_tokens.1 (of_decide_eq_true (List.mem_filter.1 hname').2) with
      ⟨q, hq, htoken, rfl⟩ | ⟨-, -, -, -, hundeclared⟩
    · exact .inl (hdeclared hq htoken)
    · exact .inr hundeclared
  · -- a terminal in the rule, which is a declared token or one of its own
    obtain ⟨t, ht, heq⟩ := List.mem_map.1 hleaf
    rw [terminalAtom_eq huses] at heq
    cases heq
    cases hnamed : named? ps t with
    | some q =>
        obtain ⟨hq, htoken, -⟩ := named?_eq_some hnamed
        exact .inl (hdeclared hq htoken)
    | none =>
        have hinline := mem_inlineTerminals.2 ⟨p, hp, hrule, ht⟩
        exact .inl (List.mem_append_left _ (List.mem_map_of_mem (mem_unnamed.2 ⟨hinline, hnamed⟩)))

theorem token_mem_resolved {t : Terminal} (huses : UsesTokens ps) (ht : t ∈ unnamed ps) :
    .token t.tokenName ∈ (ruleBuilder ps).resolved target := by
  obtain ⟨hinline, hnamed⟩ := mem_unnamed.1 ht
  obtain ⟨p, hp, hrule, hterminal⟩ := mem_inlineTerminals.1 hinline
  rw [mem_resolved rfl]
  refine ⟨p, hp, hrule, List.mem_append_right _ (List.mem_map.2 ⟨t, hterminal, ?_⟩)⟩
  rw [terminalAtom_eq huses, hnamed]
  rfl

theorem ofProductions_inStep (h : Language.ofProductions ps = .ok l) : InStep ps l := by
  obtain ⟨hnodup, hlexer, target, hatoms⟩ := ofProductions_eq_ok h
  obtain ⟨hsome, hrules⟩ := lexerOf_eq_ok hlexer
  have hnames : ∀ lexer ∈ l.lexer, lexer.names = lexemes ps := by
    intro lexer hmem
    obtain ⟨rules, hok, rfl⟩ := hrules lexer hmem
    exact map_snd_lexerRules hok
  have hmode : ∀ a ∈ l.grammar.atoms, ∀ mode, a.mode? = some mode →
      (mode = .tokens ↔ UsesTokens ps) := by
    intro a ha mode hmode
    rw [hatoms] at ha
    rw [mode_of_mem_resolved hmode ha, Vocabulary.mode_eq_tokens]
  refine ⟨hsome, hnames, fun lexer hmem => hnames lexer hmem ▸ nodup_lexemes hnodup,
    fun name hname => ?_, fun lexer hmem t ht => ?_, hmode⟩
  · have huses : UsesTokens ps := (hmode _ hname .tokens rfl).1 rfl
    rcases mem_lexemes_of_token huses (hatoms ▸ hname) with hmem | hundeclared
    · obtain ⟨lexer, hlexer⟩ := Option.isSome_iff_exists.1
        (hsome.2 ⟨huses, List.ne_nil_of_mem hmem⟩)
      exact .inl ⟨lexer, hlexer, hnames lexer hlexer ▸ hmem⟩
    · exact .inr hundeclared
  · obtain ⟨huses, -⟩ := hsome.1 (Option.isSome_of_mem hmem)
    rw [hatoms]
    exact token_mem_resolved huses ht

/-- Text describes a language whose grammar and lexer are in step, or it is refused, but never
for what only tables can have wrong. -/
theorem ofText_inStep (text : String) :
    (∀ l, Language.ofText text = .ok l → ∃ ps, productions text = .ok ps ∧ InStep ps l) ∧
      (∀ textTerminal token, Language.ofText text ≠ .error (.mixedModes textTerminal token)) ∧
      ∀ owner index, Language.ofText text ≠ .error (.invalidReference owner index) := by
  refine ⟨fun l h => ?_, fun textTerminal token h => ?_, fun owner index h => ?_⟩
  · obtain ⟨ps, hps, hl⟩ := Grammar.bind_eq_ok.1 h
    exact ⟨ps, hps, ofProductions_inStep hl⟩
  · have hother := ofText_eq_error h
    contradiction
  · have hother := ofText_eq_error h
    contradiction

/-- A rule with a keyword that is declared behind names, and with a mark that is not declared. -/
def keywords : List Production :=
  [⟨"s", .sequence [.terminal (.literal "if"), .name "NAME", .terminal (.literal "!")]⟩,
    ⟨"NAME", .terminal (.pattern "[a-z]+")⟩, ⟨"IF", .terminal (.literal "if")⟩]

def keywordsText : String := "s:'if' NAME '!' ;NAME:`[a-z]+` ;IF:'if' ;"

theorem print_keywords : print .narrow keywords = keywordsText := by
  have hchars : Layout.narrow.margin ++ keywords.flatMap (Production.chars .narrow) =
      keywordsText.toList := by decide +kernel
  rw [print, hchars, String.ofList_toList]

theorem productions_keywords : productions keywordsText = .ok keywords := by
  rw [← print_keywords]
  refine productions_print .narrow (by simp [keywords]) ?_ ?_ ?_
  · simp [keywords]
    decide
  · simp [keywords, Production.nesting]
    decide
  · rw [print_keywords]
    decide

set_option maxRecDepth 4000 in
theorem isSome_lexer_keywords :
    (Language.ofProductions keywords).map (fun l => l.lexer.isSome) = .ok true := by
  with_unfolding_all rfl

theorem exists_language_of_isSome {text : String} {ps : List Production}
    (hps : productions text = .ok ps)
    (hsome : (Language.ofProductions ps).map (fun l => l.lexer.isSome) = .ok true) :
    ∃ l lexer, Language.ofText text = .ok l ∧ l.lexer = some lexer := by
  cases hl : Language.ofProductions ps with
  | error e =>
      rw [hl] at hsome
      contradiction
  | ok l =>
      rw [hl] at hsome
      obtain ⟨lexer, hlexer⟩ := Option.isSome_iff_exists.1 (Except.ok.inj hsome)
      exact ⟨l, lexer, Grammar.bind_eq_ok.2 ⟨_, hps, hl⟩, hlexer⟩

theorem exists_language_keywords :
    ∃ l lexer, Language.ofText keywordsText = .ok l ∧ l.lexer = some lexer :=
  exists_language_of_isSome productions_keywords isSome_lexer_keywords

theorem ofText_inStep_keywords :
    ∃ l lexer, Language.ofText keywordsText = .ok l ∧ productions keywordsText = .ok keywords ∧
      l.lexer = some lexer ∧ lexer.names = ["'!'", "NAME", "IF"] ∧
        .token "'!'" ∈ l.grammar.atoms := by
  obtain ⟨l, lexer, hl, hlexer⟩ := exists_language_keywords
  obtain ⟨ps, hps, hstep⟩ := (ofText_inStep keywordsText).1 l hl
  cases hps.symm.trans productions_keywords
  have hunnamed : unnamed keywords = [.literal "!"] := by decide +kernel
  refine ⟨l, lexer, hl, hps, hlexer, ?_, ?_⟩
  · rw [hstep.names lexer hlexer, hunnamed]
    decide +kernel
  · exact hstep.used lexer hlexer (.literal "!") (hunnamed ▸ List.mem_singleton_self _)

end Seedling.Ebnf
