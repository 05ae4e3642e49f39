import Seedling.Grammar.Lint
import Seedling.Proofs.Grammar.Building
import Seedling.Proofs.Parse.Hopeless
import Seedling.Proofs.Parse.Phrases

/-!
Expressions that always succeed. The check looks into rules, each of them once, and says that an
expression always succeeds if its parts are such that it does. It is right as far as the rules
go that it has looked into: what it calls sure fails only where one of these has been answered
with a failure.
-/

namespace Seedling

/-- What matches wherever it is evaluated, if the rules do that were looked into. -/
inductive Grammar.Sure (g : Grammar) (looked : SortedSet RuleId) : Part → Prop where
  | call {id r} : g.atoms[id]? = some (.rule r) → r ∈ looked → g.Sure looked (.rule r) →
      g.Sure looked (.atom id)
  | body {r rule} : g.rules[r]? = some rule → g.Sure looked (.atom rule.body) →
      g.Sure looked (.rule r)
  | literal {id text} : g.atoms[id]? = some (.literal text) → text.isEmpty = true →
      g.Sure looked (.atom id)
  | pattern {id pattern} : g.atoms[id]? = some (.pattern pattern) →
      g.leftEdge.isNullable id = true → g.Sure looked (.atom id)
  | sequence {id atoms} : g.atoms[id]? = some (.sequence atoms) →
      (∀ a ∈ atoms, g.Sure looked (.atom a)) → g.Sure looked (.atom id)
  | choice {id atoms a} : g.atoms[id]? = some (.choice atoms) → a ∈ atoms →
      g.Sure looked (.atom a) → g.Sure looked (.atom id)
  | optional {id a max} : g.atoms[id]? = some (.repetition a 0 max) → g.Sure looked (.atom id)
  | repetition {id a min max} : g.atoms[id]? = some (.repetition a min max) →
      g.Sure looked (.atom a) → g.Sure looked (.atom id)
  | lookahead {id a} : g.atoms[id]? = some (.lookahead a true) → g.Sure looked (.atom a) →
      g.Sure looked (.atom id)
  | discard {id a} : g.atoms[id]? = some (.discard a) → g.Sure looked (.atom a) →
      g.Sure looked (.atom id)
  | splice {id a} : g.atoms[id]? = some (.splice a) → g.Sure looked (.atom a) →
      g.Sure looked (.atom id)

theorem Grammar.Sure.mono {g : Grammar} {looked looked' : SortedSet RuleId} {part : Part}
    (h : g.Sure looked part) (hle : ∀ r ∈ looked, r ∈ looked') : g.Sure looked' part := by
  induction h with
  | call hatom hr _ ih => exact .call hatom (hle _ hr) ih
  | body hrule _ ih => exact .body hrule ih
  | literal hatom hempty => exact .literal hatom hempty
  | pattern hatom hnullable => exact .pattern hatom hnullable
  | sequence hatom _ ih => exact .sequence hatom ih
  | choice hatom ha _ ih => exact .choice hatom ha ih
  | optional hatom => exact .optional hatom
  | repetition hatom _ ih => exact .repetition hatom ih
  | lookahead hatom _ ih => exact .lookahead hatom ih
  | discard hatom _ ih => exact .discard hatom ih
  | splice hatom _ ih => exact .splice hatom ih

/-! ### The check -/

namespace LeftEdge

/-- A verdict forgets no rule that has been looked into, and is right. -/
structure Supports (g : Grammar) (part : Part) (visited : SortedSet RuleId)
    (v : Verdict) : Prop where
  keeps : ∀ r ∈ visited, r ∈ v.2
  sure : v.1 = true → g.Sure v.2 part

theorem supports_false (g : Grammar) (part : Part) (visited : SortedSet RuleId) :
    Supports g part visited (false, visited) :=
  ⟨fun _ hr => hr, fun h => by contradiction⟩

section Lists

variable {g : Grammar} {holds : AtomId → SortedSet RuleId → Verdict}
  (hholds : ∀ a visited, Supports g (.atom a) visited (holds a visited))

include hholds in
theorem allHold_supports (atoms : List AtomId) (visited : SortedSet RuleId) :
    (∀ r ∈ visited, r ∈ (allHold holds atoms visited).2) ∧
      ((allHold holds atoms visited).1 = true →
        ∀ a ∈ atoms, g.Sure (allHold holds atoms visited).2 (.atom a)) := by
  induction atoms generalizing visited with
  | nil => exact ⟨fun _ hr => hr, fun _ => List.forall_mem_nil _⟩
  | cons a rest ih =>
      have ha := hholds a visited
      rw [allHold]
      rcases hv : holds a visited with ⟨_ | _, visited'⟩ <;> rw [hv] at ha <;>
        obtain ⟨hkeeps, hsure⟩ := ha
      · exact ⟨hkeeps, fun h => by contradiction⟩
      · obtain ⟨hkeeps', hsure'⟩ := ih visited'
        exact ⟨fun r hr => hkeeps' r (hkeeps r hr),
          fun h => List.forall_mem_cons.2 ⟨(hsure rfl).mono hkeeps', hsure' h⟩⟩

include hholds in
theorem anyHolds_supports (atoms : List AtomId) (visited : SortedSet RuleId) :
    (∀ r ∈ visited, r ∈ (anyHolds holds atoms visited).2) ∧
      ((anyHolds holds atoms visited).1 = true →
        ∃ a ∈ atoms, g.Sure (anyHolds holds atoms visited).2 (.atom a)) := by
  induction atoms generalizing visited with
  | nil => exact ⟨fun _ hr => hr, fun h => by contradiction⟩
  | cons a rest ih =>
      have ha := hholds a visited
      rw [anyHolds]
      rcases hv : holds a visited with ⟨_ | _, visited'⟩ <;> rw [hv] at ha <;>
        obtain ⟨hkeeps, hsure⟩ := ha
      · obtain ⟨hkeeps', hsure'⟩ := ih visited'
        refine ⟨fun r hr => hkeeps' r (hkeeps r hr), fun h => ?_⟩
        obtain ⟨b, hb, hsure⟩ := hsure' h
        exact ⟨b, List.mem_cons_of_mem a hb, hsure⟩
      · exact ⟨hkeeps, fun _ => ⟨a, List.mem_cons_self, hsure rfl⟩⟩

end Lists

variable {g : Grammar}

theorem atomSucceeds_supports {succeeds : RuleId → SortedSet RuleId → Verdict}
    (hrule : ∀ r visited, Supports g (.rule r) visited (succeeds r visited) ∧
      ((succeeds r visited).1 = true → r ∈ (succeeds r visited).2))
    (bound : Nat) (id : AtomId) (visited : SortedSet RuleId) :
    Supports g (.atom id) visited (atomSucceeds g.leftEdge succeeds bound id visited) := by
  -- On the bound, which goes down from an atom to its operands.
  induction bound generalizing id visited with
  | zero => exact supports_false _ _ _
  | succ bound ih =>
      rw [atomSucceeds]
      cases hatom : g.leftEdge.grammar.atoms[id]? with
      | none => exact supports_false _ _ _
      | some atom =>
          cases atom with
          | rule r =>
              obtain ⟨⟨hkeeps, hsure⟩, hlooked⟩ := hrule r visited
              exact ⟨hkeeps, fun h => .call hatom (hlooked h) (hsure h)⟩
          | literal text => exact ⟨fun _ hr => hr, .literal hatom⟩
          | pattern pattern => exact ⟨fun _ hr => hr, .pattern hatom⟩
          | token => exact supports_false _ _ _
          | sequence atoms =>
              obtain ⟨hkeeps, hsure⟩ := allHold_supports ih atoms visited
              exact ⟨hkeeps, fun h => .sequence hatom (hsure h)⟩
          | choice atoms =>
              obtain ⟨hkeeps, hsure⟩ := anyHolds_supports ih atoms visited
              refine ⟨hkeeps, fun h => ?_⟩
              obtain ⟨a, ha, hsure⟩ := hsure h
              exact .choice hatom ha hsure
          | repetition a min max =>
              dsimp only
              split
              · rename_i hmin
                exact ⟨fun _ hr => hr, fun _ => .optional (hmin ▸ hatom)⟩
              · exact ⟨(ih a visited).keeps, fun h => .repetition hatom ((ih a visited).sure h)⟩
          | lookahead a positive =>
              cases positive with
              | true =>
                  exact ⟨(ih a visited).keeps, fun h => .lookahead hatom ((ih a visited).sure h)⟩
              | false => exact supports_false _ _ _
          | discard a =>
              exact ⟨(ih a visited).keeps, fun h => .discard hatom ((ih a visited).sure h)⟩
          | splice a => exact ⟨(ih a visited).keeps, fun h => .splice hatom ((ih a visited).sure h)⟩

theorem ruleSucceeds_supports (depth : Nat) (r : RuleId) (visited : SortedSet RuleId) :
    Supports g (.rule r) visited (ruleSucceeds g.leftEdge depth r visited) ∧
      ((ruleSucceeds g.leftEdge depth r visited).1 = true →
        r ∈ (ruleSucceeds g.leftEdge depth r visited).2) := by
  induction depth generalizing r visited with
  | zero => exact ⟨supports_false _ _ _, fun h => by contradiction⟩
  | succ depth ih =>
      rw [ruleSucceeds]
      split
      · exact ⟨supports_false _ _ _, fun h => by contradiction⟩
      · cases hrule : g.leftEdge.grammar.rules[r]? with
        | none => exact ⟨supports_false _ _ _, fun h => by contradiction⟩
        | some rule =>
            obtain ⟨hkeeps, hsure⟩ :=
              atomSucceeds_supports ih g.leftEdge.grammar.atoms.size rule.body (visited.insert r)
            refine ⟨⟨fun r' hr' => hkeeps r' (SortedSet.mem_insert.2 (.inr hr')), fun h => ?_⟩,
              fun _ => hkeeps r (SortedSet.mem_insert.2 (.inl rfl))⟩
            exact .body hrule (hsure h)

/-- The rules that the check looks into for an atom. -/
def lookedInto (e : LeftEdge) (id : AtomId) : SortedSet RuleId :=
  (e.atomSucceeds (e.ruleSucceeds e.grammar.rules.size) e.grammar.atoms.size id .empty).2

/-- What the check says always succeeds does if the rules do that it has looked into. -/
theorem sure_of_alwaysSucceeds {id : AtomId} (h : g.leftEdge.alwaysSucceeds id = true) :
    g.Sure (g.leftEdge.lookedInto id) (.atom id) :=
  (atomSucceeds_supports (ruleSucceeds_supports g.rules.size) g.atoms.size id .empty).sure h

end LeftEdge

/-! ### What is sure does not fail by itself -/

theorem Grammar.mode?_of_terminal {atoms : Array Atom} {rules : Array Rule}
    {root : RuleId} {g : Grammar}
    (hg : Grammar.assemble atoms rules root = .ok g) {id : AtomId} {atom : Atom} {mode : Mode}
    (hatom : g.atoms[id]? = some atom) (hmode : atom.mode? = some mode) : g.mode? = some mode := by
  obtain ⟨-, -, -, hmodes, matchers, -, rfl⟩ := Grammar.assemble_eq_ok hg
  have hmem : atom ∈ atoms.toList := Array.mem_toList_iff.2 (Array.mem_of_getElem? hatom)
  have hfirst : ∀ {atom : Atom} {mode : Mode}, atom ∈ atoms.toList → atom.mode? = some mode →
      ∃ label, Grammar.firstTerminal mode atoms.toList = some label := by
    intro atom mode hmem hmode
    rw [← Option.isSome_iff_exists, Grammar.firstTerminal, List.findSome?_isSome_iff]
    refine ⟨atom, hmem, ?_⟩
    rw [if_pos hmode]
    cases atom with
    | literal | pattern | token => rfl
    | rule | sequence | choice | repetition | lookahead | discard | splice => contradiction
  have hsome : ∃ mode', Grammar.mode? ⟨atoms, rules, root, matchers.toArray⟩ = some mode' := by
    rw [← Option.isSome_iff_exists, Grammar.mode?, List.findSome?_isSome_iff]
    exact ⟨atom, hmem, by rw [hmode]; rfl⟩
  obtain ⟨mode', hmode'⟩ := hsome
  obtain ⟨atom', hmem', hatom'⟩ := List.exists_of_findSome?_eq_some hmode'
  obtain ⟨label, hlabel⟩ := hfirst hmem hmode
  obtain ⟨label', hlabel'⟩ := hfirst hmem' hatom'
  rw [hmode']
  rw [Grammar.checkModes] at hmodes
  cases mode <;> cases mode' <;> first | rfl | (rw [hlabel, hlabel'] at hmodes; contradiction)

/-- An input that is read as text wherever the grammar has a text to match. -/
def Grammar.Reads (g : Grammar) (subject : Subject) : Prop :=
  ∀ (id : AtomId) (atom : Atom), g.atoms[id]? = some atom → atom.mode? = some .text →
    ∃ bytes lines, subject = .text bytes lines

section Meaning

variable {g : Grammar} {subject : Subject} {A : Answers} {p : Nat} {o : Option Piece}

theorem Meaning.exists_of_items_none {atoms : List AtomId}
    (h : Meaning g subject A (.items atoms) p o)
    (ho : o = none) : ∃ a ∈ atoms, ∃ q, Meaning g subject A (.atom a) q none := by
  induction atoms generalizing p o with
  | nil =>
      cases h
      contradiction
  | cons a rest ih =>
      cases h with
      | item _ hrest =>
          obtain ⟨b, hb, hfails⟩ := ih hrest (Option.map_eq_none_iff.1 ho)
          exact ⟨b, List.mem_cons_of_mem a hb, hfails⟩
      | broken hx => exact ⟨a, List.mem_cons_self, p, hx⟩

theorem Meaning.of_alternatives_none {atoms : List AtomId}
    (h : Meaning g subject A (.alternatives atoms) p none) :
    ∀ a ∈ atoms, Meaning g subject A (.atom a) p none := by
  induction atoms with
  | nil => exact List.forall_mem_nil _
  | cons a rest ih =>
      cases h with
      | passed hx hrest => exact List.forall_mem_cons.2 ⟨hx, ih hrest⟩

theorem Meaning.exists_of_run_none {a : AtomId} {min count : Nat} {max : Option Nat}
    (h : Meaning g subject A (.run a min max count) p o) (ho : o = none) :
    0 < min ∧ ∃ q, Meaning g subject A (.atom a) q none := by
  generalize hform : Form.run a min max count = form at h
  induction h generalizing count with
  | more _ _ _ _ _ ih =>
      cases hform
      exact ih (Option.map_eq_none_iff.1 ho) rfl
  | tooFew _ hx hcount =>
      cases hform
      exact ⟨Nat.zero_lt_of_lt hcount, _, hx⟩
  | _ => contradiction

theorem Grammar.Reads.matchTerminal_literal (hreads : g.Reads subject) {id : AtomId} {text : String}
    (hatom : g.atoms[id]? = some (.literal text)) (hempty : text.isEmpty = true) (p : Nat) :
    subject.matchTerminal g id p ≠ none := by
  obtain ⟨bytes, lines, rfl⟩ := hreads id _ hatom rfl
  obtain rfl := String.isEmpty_iff.1 hempty
  simp [Subject.matchTerminal, hatom, Text.bytes]

theorem Grammar.Reads.matchTerminal_pattern (hreads : g.Reads subject) (hg : g.Compiled)
    {id : AtomId} {pattern : String} (hatom : g.atoms[id]? = some (.pattern pattern))
    (hnullable : g.leftEdge.isNullable id = true) (p : Nat) :
    subject.matchTerminal g id p ≠ none := by
  obtain ⟨bytes, lines, rfl⟩ := hreads id _ hatom rfl
  have hfinal : ((patternMatcher pattern).map fun m => m.dfa.isFinal 0).getD false = true :=
    (hg.computes_nullable id _ hatom).symm.trans hnullable
  rw [patternMatcher] at hfinal
  cases hparse : Regex.parse pattern with
  | error e => simp [hparse] at hfinal
  | ok regex =>
      rw [hparse] at hfinal
      have hvalid := Automaton.Dfa.minimized_valid regex.determinize_compile_valid
      obtain ⟨m, hm⟩ := Automaton.Recognizer.exists_longestMatch hvalid hfinal bytes p
      rw [Grammar.matchTerminal_pattern hg hatom hparse, Regex.recognizer, hm]
      exact Option.some_ne_none _

theorem Meaning.exists_operator {id : AtomId} {atom : Atom} (h : Meaning g subject A (.atom id) p o)
    (hatom : g.atoms[id]? = some atom) :
    ∃ o', Meaning g subject A (.operator id atom) p o' ∧ o' = o := by
  cases h with
  | atom hatom' hx =>
      cases hatom.symm.trans hatom'
      exact ⟨o, hx, rfl⟩

/-- A failure of a part: of an atom, or of the body of a rule. -/
def Part.Fails (g : Grammar) (subject : Subject) (A : Answers) : Part → Nat → Prop
  | .atom id, p => Meaning g subject A (.atom id) p none
  | .rule r, p => Body g subject A r p none

def Grammar.Relied (g : Grammar) (looked : SortedSet RuleId) (r : RuleId) : Prop :=
  r ∈ looked ∧ g.Sure looked (.rule r)

/-- What is sure fails only where a rule has failed that it relies on. -/
theorem Grammar.Sure.exists_answer {looked : SortedSet RuleId} {part : Part}
    (h : g.Sure looked part)
    (hg : g.Compiled) (hreads : g.Reads subject) (hfails : part.Fails g subject A p) :
    ∃ r q, g.Relied looked r ∧ A r q none := by
  -- On why it is sure. A reference to a rule is the end of it.
  induction h generalizing p with
  | call hatom hr hsure =>
      obtain ⟨o, hx, ho⟩ := Meaning.exists_operator hfails hatom
      cases hx with
      | rule ha =>
          obtain rfl := Option.map_eq_none_iff.1 ho
          exact ⟨_, p, ⟨hr, hsure⟩, ha⟩
  | body hrule _ ih =>
      obtain ⟨rule, hrule', x, hx, ho⟩ := hfails
      cases hrule.symm.trans hrule'
      obtain rfl := Option.map_eq_none_iff.1 ho.symm
      exact ih hx
  | literal hatom hempty =>
      obtain ⟨o, hx, ho⟩ := Meaning.exists_operator hfails hatom
      cases hx with
      | literal =>
          exact absurd (Option.map_eq_none_iff.1 ho) (hreads.matchTerminal_literal hatom hempty p)
  | pattern hatom hnullable =>
      obtain ⟨o, hx, ho⟩ := Meaning.exists_operator hfails hatom
      cases hx with
      | pattern =>
          exact absurd (Option.map_eq_none_iff.1 ho)
            (hreads.matchTerminal_pattern hg hatom hnullable p)
  | sequence hatom _ ih =>
      obtain ⟨o, hx, ho⟩ := Meaning.exists_operator hfails hatom
      cases hx with
      | sequence hx =>
          obtain ⟨a, ha, q, hfails⟩ := hx.exists_of_items_none ho
          exact ih a ha hfails
  | choice hatom ha _ ih =>
      obtain ⟨o, hx, rfl⟩ := Meaning.exists_operator hfails hatom
      cases hx with
      | choice hx => exact ih (hx.of_alternatives_none _ ha)
  | optional hatom =>
      obtain ⟨o, hx, ho⟩ := Meaning.exists_operator hfails hatom
      cases hx with
      | repetition hx => exact absurd (hx.exists_of_run_none ho).1 (Nat.lt_irrefl 0)
  | repetition hatom _ ih =>
      obtain ⟨o, hx, ho⟩ := Meaning.exists_operator hfails hatom
      cases hx with
      | repetition hx =>
          obtain ⟨-, q, hfails⟩ := hx.exists_of_run_none ho
          exact ih hfails
  | lookahead hatom _ ih =>
      obtain ⟨o, hx, ho⟩ := Meaning.exists_operator hfails hatom
      cases hx with
      | @lookahead _ _ _ _ y hy =>
          cases y with
          | none => exact ih hy
          | some x => contradiction
  | discard hatom _ ih =>
      obtain ⟨o, hx, ho⟩ := Meaning.exists_operator hfails hatom
      cases hx with
      | discard hy =>
          obtain rfl := Option.map_eq_none_iff.1 ho
          exact ih hy
  | splice hatom _ ih =>
      obtain ⟨o, hx, ho⟩ := Meaning.exists_operator hfails hatom
      cases hx with
      | splice hy =>
          obtain rfl := Option.map_eq_none_iff.1 ho
          exact ih hy

end Meaning

/-! ### Warnings -/

/-- The atoms that an expression is built of, without what stands behind its references. -/
inductive Grammar.BuiltOf (g : Grammar) : AtomId → AtomId → Prop where
  | self {id} : g.BuiltOf id id
  | child {id c id' atom} : g.atoms[id]? = some atom → c ∈ atom.children → g.BuiltOf c id' →
      g.BuiltOf id id'

namespace LeftEdge

variable {g : Grammar} {finding : Finding}

theorem exists_of_mem_findAll {find : AtomId → SortedSet AtomId → List Finding × SortedSet AtomId}
    {atoms : List AtomId} {seen : SortedSet AtomId} (h : finding ∈ (findAll find atoms seen).1) :
    ∃ a ∈ atoms, ∃ seen, finding ∈ (find a seen).1 := by
  induction atoms generalizing seen with
  | nil => contradiction
  | cons a rest ih =>
      rw [findAll] at h
      rcases List.mem_append.1 h with h | h
      · exact ⟨a, List.mem_cons_self, seen, h⟩
      · obtain ⟨b, hb, hfound⟩ := ih h
        exact ⟨b, List.mem_cons_of_mem a hb, hfound⟩

theorem exists_of_mem_findingsFrom {bound : Nat} {id : AtomId} {seen : SortedSet AtomId}
    (h : finding ∈ (g.leftEdge.findingsFrom bound id seen).1) :
    ∃ id' atom, g.BuiltOf id id' ∧ g.atoms[id']? = some atom ∧
      finding ∈ g.leftEdge.atomFindings atom := by
  induction bound generalizing id seen with
  | zero => contradiction
  | succ bound ih =>
      rw [findingsFrom] at h
      split at h
      · contradiction
      · cases hatom : g.leftEdge.grammar.atoms[id]? with
        | none =>
            rw [hatom] at h
            contradiction
        | some atom =>
            rw [hatom] at h
            rcases List.mem_append.1 h with h | h
            · exact ⟨id, atom, .self, hatom, h⟩
            · obtain ⟨c, hc, seen', hfound⟩ := exists_of_mem_findAll h
              obtain ⟨id', atom', hbuilt, hfound⟩ := ih hfound
              exact ⟨id', atom', .child hatom hc hbuilt, hfound⟩

theorem exists_of_mem_unreachable {alternatives : List AtomId} {k behind : Nat}
    (h : .unreachableAlternatives k behind ∈ g.leftEdge.unreachable alternatives) :
    ∃ a, alternatives[k]? = some a ∧ g.leftEdge.alwaysSucceeds a = true := by
  rw [unreachable] at h
  cases hfind : alternatives.findIdx? g.leftEdge.alwaysSucceeds with
  | none =>
      rw [hfind] at h
      contradiction
  | some i =>
      rw [hfind] at h
      dsimp only at h
      split at h
      · cases List.mem_singleton.1 h
        obtain ⟨hlt, hsucceeds, -⟩ := List.findIdx?_eq_some_iff_getElem.1 hfind
        exact ⟨_, List.getElem?_eq_getElem hlt, hsucceeds⟩
      · contradiction

theorem exists_choice_of_unreachable {atom : Atom} {k behind : Nat}
    (h : .unreachableAlternatives k behind ∈ g.leftEdge.atomFindings atom) :
    ∃ alternatives, atom = .choice alternatives ∧
      .unreachableAlternatives k behind ∈ g.leftEdge.unreachable alternatives := by
  unfold atomFindings at h
  split at h
  · split at h <;> simp at h
  · rename_i alternatives
    refine ⟨alternatives, rfl, (List.mem_append.1 h).resolve_left fun hdup => ?_⟩
    obtain ⟨_, -, hdup⟩ := List.mem_filterMap.1 hdup
    obtain ⟨_, -, hdup⟩ := Option.map_eq_some_iff.1 hdup
    contradiction
  · contradiction

theorem exists_choice_of_warning {w : Warning} {k behind : Nat} (hw : w ∈ g.warnings)
    (hfinding : w.finding = .unreachableAlternatives k behind) :
    ∃ (r : RuleId) (rule : Rule) (choice : AtomId) (alternatives : List AtomId),
      g.rules[r]? = some rule ∧ rule.name = w.rule ∧ g.BuiltOf rule.body choice ∧
        g.atoms[choice]? = some (.choice alternatives) ∧
        .unreachableAlternatives k behind ∈ g.leftEdge.unreachable alternatives := by
  rcases List.mem_append.1 hw with hw | hw
  · rcases List.mem_append.1 hw with hw | hw <;> obtain ⟨⟨rule, r⟩, -, hw⟩ :=
      List.mem_filterMap.1 hw
    · obtain ⟨-, ⟨⟩⟩ := Option.ite_none_right_eq_some.1 hw
      contradiction
    · obtain ⟨-, ⟨⟩⟩ := Option.ite_none_left_eq_some.1 hw
      contradiction
  · obtain ⟨⟨rule, r⟩, hrule, hw⟩ := List.mem_flatMap.1 hw
    obtain ⟨finding, hfound, rfl⟩ := List.mem_map.1 hw
    obtain ⟨choice, atom, hbuilt, hatom, hatomFound⟩ := exists_of_mem_findingsFrom hfound
    cases hfinding
    obtain ⟨alternatives, rfl, hunreachable⟩ := exists_choice_of_unreachable hatomFound
    rw [List.mk_mem_zipIdx_iff_getElem?, Array.getElem?_toList] at hrule
    exact ⟨r, rule, choice, alternatives, hrule, rfl, hbuilt, hatom, hunreachable⟩

end LeftEdge

end Seedling
