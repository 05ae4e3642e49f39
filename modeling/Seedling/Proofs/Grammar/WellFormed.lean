import Seedling.Grammar.Validate

/-!
What the checks establish. In a grammar that was accepted every number is in range, operands come
before the atoms made of them, and each matcher is the recognizer of its pattern.
-/

namespace Seedling.Grammar

structure WellFormed (g : Grammar) : Prop where
  root_lt : g.root < g.rules.size
  body_lt : ∀ {r : RuleId} {rule : Rule}, g.rules[r]? = some rule → rule.body < g.atoms.size
  child_lt : ∀ {id : AtomId} {atom : Atom}, g.atoms[id]? = some atom → ∀ c ∈ atom.children, c < id
  rule_lt : ∀ {id : AtomId} {r : RuleId}, g.atoms[id]? = some (.rule r) → r < g.rules.size
  matcher : ∀ {id : AtomId} {m : Automaton.Recognizer}, g.matcher? id = some m →
    ∃ pattern r, g.atoms[id]? = some (.pattern pattern) ∧ Regex.parse pattern = .ok r ∧
      m = r.recognizer

theorem body_lt_of_checkRules {n : Nat} {seen : List String} {rules : List Rule}
    (h : checkRules n seen rules = .ok ()) : ∀ rule ∈ rules, rule.body < n := by
  induction rules generalizing seen with
  | nil => simp
  | cons first rest ih =>
      rw [checkRules] at h
      split at h
      · contradiction
      · split at h
        · contradiction
        · rename_i hbody
          intro rule hrule
          rcases List.mem_cons.1 hrule with rfl | hrule
          · exact Nat.lt_of_not_le hbody
          · exact ih h rule hrule

theorem nodup_of_checkRules {n : Nat} {seen : List String} {rules : List Rule}
    (h : checkRules n seen rules = .ok ()) :
    (rules.map Rule.name).Nodup ∧ ∀ rule ∈ rules, rule.name ∉ seen := by
  induction rules generalizing seen with
  | nil => simp
  | cons first rest ih =>
      rw [checkRules] at h
      split at h
      · contradiction
      · rename_i hfirst
        split at h
        · contradiction
        · obtain ⟨hnodup, hrest⟩ := ih h
          refine ⟨List.nodup_cons.2 ⟨fun hmem => ?_, hnodup⟩, List.forall_mem_cons.2 ⟨hfirst, ?_⟩⟩
          · obtain ⟨rule, hrule, hname⟩ := List.mem_map.1 hmem
            exact hrest rule hrule (hname ▸ List.mem_cons_self)
          · exact fun rule hrule hseen => hrest rule hrule (List.mem_cons_of_mem _ hseen)

theorem of_checkAtoms {n id : Nat} {atoms : List Atom} (h : checkAtoms n id atoms = .ok ()) :
    ∀ i atom, atoms[i]? = some atom →
      (∀ c ∈ atom.children, c < id + i) ∧ ∀ r, atom = .rule r → r < n := by
  induction atoms generalizing id with
  | nil => simp
  | cons first rest ih =>
      unfold checkAtoms at h
      split at h
      · contradiction
      · rename_i hchildren
        have hfirst : ∀ c ∈ first.children, c < id := by
          intro c hc
          have hle := List.find?_eq_none.1 hchildren c hc
          simpa using hle
        have hrest : checkAtoms n (id + 1) rest = .ok () ∧ ∀ r, first = .rule r → r < n := by
          split at h
          · split at h
            · contradiction
            · rename_i r hr
              refine ⟨h, fun r' heq => ?_⟩
              cases heq
              exact Nat.lt_of_not_le hr
          · rename_i hne
            exact ⟨h, fun r heq => absurd heq (hne r)⟩
        intro i atom hatom
        cases i with
        | zero =>
            obtain rfl : first = atom := by simpa using hatom
            exact ⟨hfirst, hrest.2⟩
        | succ i =>
            obtain ⟨hlt, hrule⟩ := ih hrest.1 i atom (by simpa using hatom)
            exact ⟨fun c hc => by have := hlt c hc; omega, hrule⟩

theorem of_compileMatcher {atom : Atom} {m : Automaton.Recognizer}
    (h : compileMatcher atom = .ok (some m)) :
    ∃ pattern r, atom = .pattern pattern ∧ Regex.parse pattern = .ok r ∧ m = r.recognizer := by
  unfold compileMatcher at h
  split at h
  · split at h
    · rename_i pattern _ r hparse
      exact ⟨pattern, r, rfl, hparse, by simpa using h.symm⟩
    · contradiction
  · simp at h

theorem getElem?_of_mapM {α β ε : Type} {f : α → Except ε β} {l : List α} {l' : List β}
    (h : l.mapM f = .ok l') {i : Nat} {b : β} (hb : l'[i]? = some b) :
    ∃ a, l[i]? = some a ∧ f a = .ok b := by
  induction l generalizing l' i with
  | nil =>
      simp only [List.mapM_nil, pure, Except.pure, Except.ok.injEq] at h
      subst h
      simp at hb
  | cons a l ih =>
      rw [List.mapM_cons] at h
      cases ha : f a with
      | error e =>
          rw [ha] at h
          contradiction
      | ok b' =>
          cases hl : l.mapM f with
          | error e =>
              rw [ha, hl] at h
              contradiction
          | ok bs =>
              rw [ha, hl] at h
              obtain rfl : b' :: bs = l' := by simpa [bind, Except.bind, pure, Except.pure] using h
              cases i with
              | zero =>
                  obtain rfl : b' = b := by simpa using hb
                  exact ⟨a, rfl, ha⟩
              | succ i => exact ih hl (by simpa using hb)

theorem bind_eq_ok {α β ε : Type} {x : Except ε α} {f : α → Except ε β} {b : β} :
    x >>= f = .ok b ↔ ∃ a, x = .ok a ∧ f a = .ok b := by
  cases x with
  | error e => simp [bind, Except.bind]
  | ok a => simp [bind, Except.bind]

theorem assemble_eq_ok {atoms : Array Atom} {rules : Array Rule} {root : RuleId} {g : Grammar}
    (h : assemble atoms rules root = .ok g) :
    root < rules.size ∧ checkRules atoms.size [] rules.toList = .ok () ∧
      checkAtoms rules.size 0 atoms.toList = .ok () ∧ checkModes atoms.toList = .ok () ∧
      ∃ matchers, atoms.toList.mapM compileMatcher = .ok matchers ∧
        g = ⟨atoms, rules, root, matchers.toArray⟩ := by
  unfold assemble at h
  by_cases hempty : rules.isEmpty = true
  · rw [if_pos hempty] at h
    contradiction
  · rw [if_neg hempty] at h
    by_cases hroot : rules.size ≤ root
    · simp only [if_pos hroot] at h
      contradiction
    · simp only [if_neg hroot] at h
      obtain ⟨⟨⟩, hrules, h⟩ := bind_eq_ok.1 h
      obtain ⟨⟨⟩, hatoms, h⟩ := bind_eq_ok.1 h
      obtain ⟨⟨⟩, hmodes, h⟩ := bind_eq_ok.1 h
      obtain ⟨matchers, hmatchers, h⟩ := bind_eq_ok.1 h
      cases h
      exact ⟨Nat.lt_of_not_le hroot, hrules, hatoms, hmodes, matchers, hmatchers, rfl⟩

theorem assemble_wellFormed {atoms : Array Atom} {rules : Array Rule} {root : RuleId} {g : Grammar}
    (h : assemble atoms rules root = .ok g) : g.WellFormed := by
  obtain ⟨hroot, hrules, hatoms, -, matchers, hmatchers, rfl⟩ := assemble_eq_ok h
  have hat : ∀ {id : AtomId} {atom : Atom}, atoms[id]? = some atom →
      (∀ c ∈ atom.children, c < id) ∧ ∀ r, atom = .rule r → r < rules.size := by
    intro id atom hatom
    have hspec := of_checkAtoms hatoms id atom (by simpa using hatom)
    rwa [Nat.zero_add] at hspec
  refine ⟨hroot, fun {r rule} hrule => ?_, fun hatom => (hat hatom).1,
    fun hatom => (hat hatom).2 _ rfl, fun {id m} hm => ?_⟩
  · refine body_lt_of_checkRules hrules rule ?_
    exact Array.mem_toList_iff.2 (Array.mem_of_getElem? hrule)
  · rw [matcher?, Option.join_eq_some_iff] at hm
    obtain ⟨atom, hatom, hcompile⟩ := getElem?_of_mapM hmatchers (by simpa using hm)
    obtain ⟨pattern, r, rfl, hparse, rfl⟩ := of_compileMatcher hcompile
    exact ⟨pattern, r, by simpa using hatom, hparse, rfl⟩

theorem ruleName_inj {atoms : Array Atom} {rules : Array Rule} {root : RuleId} {g : Grammar}
    (h : assemble atoms rules root = .ok g) {r r' : RuleId} (hr : r < g.rules.size)
    (hr' : r' < g.rules.size) (hname : g.ruleName r = g.ruleName r') : r = r' := by
  obtain ⟨-, hrules, -, -, matchers, -, hg⟩ := assemble_eq_ok h
  subst hg
  have hnodup := (nodup_of_checkRules hrules).1
  have hat : ∀ {i} (hi : i < rules.size), (rules.toList.map Rule.name)[i]? = some (rules[i]).name :=
    fun hi => by simp [hi]
  refine (List.getElem?_inj (by simpa using hr) hnodup).1
    ((hat hr).trans (Eq.trans ?_ (hat hr').symm))
  simpa [ruleName, Array.getElem?_eq_getElem hr, Array.getElem?_eq_getElem hr'] using hname

theorem assemble_of_ofParts {atoms : Array Atom} {rules : Array Rule} {root : RuleId} {g : Grammar}
    (h : ofParts atoms rules root = .ok g) :
    assemble atoms rules root = .ok g ∧ g.leftEdge.unresolvable = none := by
  obtain ⟨g', hg', h⟩ := bind_eq_ok.1 h
  split at h
  · contradiction
  · rename_i hnone
    cases h
    exact ⟨hg', hnone⟩

/-- An accepted grammar is well formed, and no cycle of left recursion in it is hopeless. -/
theorem ofParts_eq_ok {atoms : Array Atom} {rules : Array Rule} {root : RuleId} {g : Grammar}
    (h : ofParts atoms rules root = .ok g) : g.WellFormed ∧ g.leftEdge.unresolvable = none :=
  (assemble_of_ofParts h).imp_left assemble_wellFormed

end Seedling.Grammar
