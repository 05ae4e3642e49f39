import Seedling.Proofs.Grammar.Alike
import Seedling.Proofs.Grammar.Unchained

/-!
Builders that agree up to how series are nested build grammars that do, or fail with the same
error. The checks look at terminals, references and rules, which are the same and come in the
same order, and at the left edge.
-/

namespace Seedling

/-- Both fail with the same error, or both succeed with related results. -/
inductive Concur {ε α β : Type} (R : α → β → Prop) : Except ε α → Except ε β → Prop where
  | ok {a b} : R a b → Concur R (.ok a) (.ok b)
  | error (e : ε) : Concur R (.error e) (.error e)

namespace Concur

variable {ε α β γ δ : Type} {R : α → β → Prop} {S : γ → δ → Prop}

theorem bind {x : Except ε α} {y : Except ε β} {f : α → Except ε γ} {g : β → Except ε δ}
    (h : Concur R x y) (hfg : ∀ a b, R a b → Concur S (f a) (g b)) :
    Concur S (x >>= f) (y >>= g) := by
  cases h with
  | ok hab => exact hfg _ _ hab
  | error e => exact .error e

theorem rfl (x : Except ε α) : Concur Eq x x := by
  cases x with
  | error e => exact .error e
  | ok a => exact .ok (Eq.refl a)

theorem imp {R' : α → β → Prop} {x : Except ε α} {y : Except ε β} (h : Concur R x y)
    (himp : ∀ a b, x = .ok a → y = .ok b → R a b → R' a b) : Concur R' x y := by
  cases h with
  | ok hab => exact .ok (himp _ _ (Eq.refl _) (Eq.refl _) hab)
  | error e => exact .error e

theorem map_eq {x : Except ε α} {y : Except ε β} {f : α → γ} {g : β → γ} (h : Concur R x y)
    (hfg : ∀ a b, R a b → f a = g b) : x.map f = y.map g := by
  cases h with
  | ok hab => exact congrArg Except.ok (hfg _ _ hab)
  | error e => exact Eq.refl _

end Concur

namespace Grammar

/-! ### Checks -/

theorem checkRules_congr {n n' : Nat} {seen : List String} {rules rules' : List Rule}
    (hnames : rules.map Rule.name = rules'.map Rule.name) (hlt : ∀ rule ∈ rules, rule.body < n)
    (hlt' : ∀ rule ∈ rules', rule.body < n') :
    checkRules n seen rules = checkRules n' seen rules' := by
  induction rules generalizing seen rules' with
  | nil =>
      rw [List.map_nil, eq_comm, List.map_eq_nil_iff] at hnames
      rw [hnames]
      rfl
  | cons rule rules ih =>
      cases rules' with
      | nil => contradiction
      | cons rule' rules' =>
          rw [List.map_cons, List.map_cons, List.cons.injEq] at hnames
          rw [List.forall_mem_cons] at hlt hlt'
          rw [checkRules, checkRules, hnames.1, if_neg (Nat.not_le_of_lt hlt.1),
            if_neg (Nat.not_le_of_lt hlt'.1), ih hnames.2 hlt.2 hlt'.2]

theorem checkAtoms_eq_ok {n id : Nat} {atoms : List Atom}
    (h : ∀ i atom, atoms[i]? = some atom →
      (∀ c ∈ atom.children, c < id + i) ∧ ∀ r, atom = .rule r → r < n) :
    checkAtoms n id atoms = .ok () := by
  induction atoms generalizing id with
  | nil => rfl
  | cons atom atoms ih =>
      obtain ⟨hchildren, hrule⟩ := h 0 atom rfl
      have hrest : checkAtoms n (id + 1) atoms = .ok () := by
        refine ih fun i atom hatom => ?_
        obtain ⟨hlt, href⟩ := h (i + 1) atom hatom
        exact ⟨fun c hc => by have := hlt c hc; omega, href⟩
      have hfind : atom.children.find? (id ≤ ·) = none := by
        rw [List.find?_eq_none]
        intro c hc
        have := hchildren c hc
        simpa using this
      unfold checkAtoms
      rw [hfind]
      cases atom with
      | rule r => exact (if_neg (Nat.not_le_of_lt (hrule r rfl))).trans hrest
      | literal | pattern | token | sequence | choice | repetition | lookahead | discard | splice =>
          exact hrest

open Builder (terminals)

theorem findSome?_terminals {β : Type} {f : Atom → Option β} (hf : ∀ a, a.mode? = none → f a = none)
    (atoms : List Atom) : (terminals atoms).findSome? f = atoms.findSome? f := by
  induction atoms with
  | nil => rfl
  | cons atom atoms ih =>
      rw [terminals] at ih
      rw [terminals, List.filter_cons]
      split
      · rw [List.findSome?_cons, List.findSome?_cons, ih]
      · rename_i hmode
        rw [List.findSome?_cons, hf atom (by simpa using hmode), ih]

theorem checkModes_congr {atoms atoms' : List Atom} (h : terminals atoms = terminals atoms') :
    checkModes atoms = checkModes atoms' := by
  have hfirst : ∀ mode, firstTerminal mode atoms = firstTerminal mode atoms' := by
    intro mode
    have hnone : ∀ a : Atom, a.mode? = none →
        (if a.mode? = some mode then a.label? else none) = none :=
      fun a ha => by simp [ha]
    rw [firstTerminal, firstTerminal, ← findSome?_terminals hnone, h, findSome?_terminals hnone]
  rw [checkModes, checkModes, hfirst, hfirst]

theorem mapM_terminals (atoms : List Atom) :
    (atoms.mapM compileMatcher).map (fun _ => ()) =
      ((terminals atoms).mapM compileMatcher).map fun _ => () := by
  induction atoms with
  | nil => rfl
  | cons atom atoms ih =>
      rw [terminals] at ih
      rw [terminals, List.filter_cons, List.mapM_cons]
      split
      · rw [List.mapM_cons]
        cases compileMatcher atom with
        | error e => rfl
        | ok m =>
            show ((atoms.mapM compileMatcher).map (m :: ·)).map _ =
              (((atoms.filter _).mapM compileMatcher).map (m :: ·)).map _
            have hcons : ∀ x : Except GrammarError (List (Option Automaton.Recognizer)),
                (x.map (m :: ·)).map (fun _ => ()) = x.map fun _ => () := by
              intro x
              cases x <;> rfl
            rw [hcons, hcons, ih]
      · rename_i hmode
        have hnone : compileMatcher atom = .ok none := by
          cases atom with
          | literal | pattern | token => contradiction
          | rule | sequence | choice | repetition | lookahead | discard | splice => rfl
        rw [hnone, ← ih]
        cases atoms.mapM compileMatcher <;> rfl

/-- Patterns are compiled, or fail to be, as the terminals are. -/
theorem mapM_concur {atoms atoms' : List Atom} (h : terminals atoms = terminals atoms') :
    Concur (fun ms ms' => atoms.mapM compileMatcher = .ok ms ∧ atoms'.mapM compileMatcher = .ok ms')
      (atoms.mapM compileMatcher) (atoms'.mapM compileMatcher) := by
  have hunit := (mapM_terminals atoms).trans (h ▸ (mapM_terminals atoms').symm)
  revert hunit
  cases atoms.mapM compileMatcher with
  | error e =>
      cases atoms'.mapM compileMatcher with
      | error e' =>
          intro hunit
          cases hunit
          exact .error e
      | ok ms' => exact fun hunit => by contradiction
  | ok ms =>
      cases atoms'.mapM compileMatcher with
      | error e' => exact fun hunit => by contradiction
      | ok ms' => exact fun _ => .ok ⟨rfl, rfl⟩

theorem getElem?_mapM {α β ε : Type} {f : α → Except ε β} {l : List α} {l' : List β}
    (h : l.mapM f = .ok l') {i : Nat} {a : α} (ha : l[i]? = some a) :
    ∃ b, l'[i]? = some b ∧ f a = .ok b := by
  induction l generalizing l' i with
  | nil => contradiction
  | cons first l ih =>
      rw [List.mapM_cons] at h
      obtain ⟨b, hb, h⟩ := bind_eq_ok.1 h
      obtain ⟨bs, hbs, h⟩ := bind_eq_ok.1 h
      cases h
      cases i with
      | zero =>
          cases ha
          exact ⟨b, rfl, hb⟩
      | succ i => exact ih hbs ha

theorem assemble_compiled {atoms : Array Atom} {rules : Array Rule} {root : RuleId} {g : Grammar}
    (h : assemble atoms rules root = .ok g) : g.Compiled := by
  refine ⟨assemble_wellFormed h, fun {id pattern} hpattern => ?_⟩
  obtain ⟨-, -, -, -, matchers, hmatchers, rfl⟩ := assemble_eq_ok h
  have hatom : atoms.toList[id]? = some (.pattern pattern) := by simpa using hpattern
  obtain ⟨m, hm, hcompile⟩ := getElem?_mapM hmatchers hatom
  have hmatcher : (Grammar.mk atoms rules root matchers.toArray).matcher? id = m := by
    rw [matcher?]
    simp [hm]
  cases hparse : Regex.parse pattern with
  | error e =>
      rw [compileMatcher, hparse] at hcompile
      contradiction
  | ok r =>
      rw [compileMatcher, hparse] at hcompile
      rw [hmatcher, patternMatcher, hparse]
      exact (Except.ok.inj hcompile).symm

/-- Tables with the same terminals and rules that agree up to how series are nested. -/
structure SameTables (atoms atoms' : Array Atom) (rules rules' : Array Rule) : Prop extends
    SameRules (atoms[·]?) (atoms'[·]?) rules rules' where
  terminals : terminals atoms.toList = terminals atoms'.toList
  atom : ∀ {id : Nat} {a : Atom}, atoms[id]? = some a →
    (∀ c ∈ a.children, c < id) ∧ ∀ r, a = .rule r → r < rules.size
  atom' : ∀ {id : Nat} {a : Atom}, atoms'[id]? = some a →
    (∀ c ∈ a.children, c < id) ∧ ∀ r, a = .rule r → r < rules'.size

namespace SameTables

variable {atoms atoms' : Array Atom} {rules rules' : Array Rule}

theorem body_lt (h : SameTables atoms atoms' rules rules') :
    (∀ rule ∈ rules.toList, rule.body < atoms.size) ∧
      ∀ rule ∈ rules'.toList, rule.body < atoms'.size := by
  have hat : ∀ {atoms : Array Atom} {id : Nat}, (atoms[id]?).isSome = true →
      id < atoms.size := by simp
  refine ⟨fun rule hmem => ?_, fun rule' hmem => ?_⟩
  · obtain ⟨r, hr⟩ := List.getElem?_of_mem hmem
    rw [Array.getElem?_toList] at hr
    rcases h.rule_cases r with ⟨hrule, -⟩ | ⟨_, _, hrule, -, -, hbody⟩
    · cases hrule.symm.trans hr
    · cases hrule.symm.trans hr
      exact hat (hbody.isSome.1 _ (List.mem_singleton_self _))
  · obtain ⟨r, hr⟩ := List.getElem?_of_mem hmem
    rw [Array.getElem?_toList] at hr
    rcases h.rule_cases r with ⟨-, hrule'⟩ | ⟨_, _, -, hrule', -, hbody⟩
    · cases hrule'.symm.trans hr
    · cases hrule'.symm.trans hr
      exact hat hbody.isSome.2

theorem checkAtoms_ok (h : SameTables atoms atoms' rules rules') :
    checkAtoms rules.size 0 atoms.toList = .ok () ∧
      checkAtoms rules'.size 0 atoms'.toList = .ok () := by
  constructor
  · refine checkAtoms_eq_ok fun i atom hatom => ?_
    rw [Nat.zero_add]
    exact h.atom (by simpa using hatom)
  · refine checkAtoms_eq_ok fun i atom hatom => ?_
    rw [Nat.zero_add]
    exact h.atom' (by simpa using hatom)

theorem assemble_concur (h : SameTables atoms atoms' rules rules') (root : RuleId) :
    Concur Alike (assemble atoms rules root) (assemble atoms' rules' root) := by
  have hempty : rules.isEmpty = rules'.isEmpty := by
    rw [Array.isEmpty, Array.isEmpty, h.size]
  have hrules : checkRules atoms.size [] rules.toList = checkRules atoms'.size [] rules'.toList :=
    checkRules_congr h.ruleNames h.body_lt.1 h.body_lt.2
  have htables : Concur
      (fun g g' => ∃ ms ms', g = ⟨atoms, rules, root, ms⟩ ∧ g' = ⟨atoms', rules', root, ms'⟩)
      (assemble atoms rules root) (assemble atoms' rules' root) := by
    unfold assemble
    rw [hempty, h.size, hrules, ← h.size, h.checkAtoms_ok.1, h.size, h.checkAtoms_ok.2,
      checkModes_congr h.terminals]
    by_cases hnone : rules'.isEmpty = true
    · rw [if_pos hnone, if_pos hnone]
      exact .error _
    rw [if_neg hnone, if_neg hnone]
    by_cases hroot : rules'.size ≤ root
    · simp only [if_pos hroot]
      exact .error _
    simp only [if_neg hroot]
    refine (Concur.rfl (checkRules atoms'.size [] rules'.toList)).bind fun _ _ _ => ?_
    refine (Concur.rfl (.ok ())).bind fun _ _ _ => ?_
    refine (Concur.rfl (checkModes atoms'.toList)).bind fun _ _ _ => ?_
    refine (mapM_concur h.terminals).bind fun ms ms' _ => ?_
    exact .ok ⟨_, _, rfl, rfl⟩
  refine htables.imp fun g g' hg hg' heq => ?_
  obtain ⟨ms, ms', rfl, rfl⟩ := heq
  refine ⟨⟨h.size, h.rule⟩, assemble_compiled hg, assemble_compiled hg', rfl, ?_⟩
  rw [mode?, mode?, ← findSome?_terminals (fun _ ha => ha), h.terminals,
    findSome?_terminals fun _ ha => ha]

theorem ofParts_concur (h : SameTables atoms atoms' rules rules') (root : RuleId) :
    Concur Alike (ofParts atoms rules root) (ofParts atoms' rules' root) := by
  refine (h.assemble_concur root).bind fun g g' halike => ?_
  rw [halike.unresolvable_eq]
  split
  · exact .error _
  · exact .ok halike

end SameTables

end Grammar

/-! ### Builders -/

namespace Builder

variable {target : String → RuleId} {b b' : Builder}

def targetOf (b : Builder) (name : String) : RuleId :=
  (b.rules.findIdx? fun r => r.name = name).getD 0

theorem find_eq_ok {name : String} {r : RuleId} (h : b.find name = .ok r) :
    r = b.targetOf name ∧ r < b.rules.size := by
  rw [find] at h
  split at h
  · rename_i id hid
    cases h
    obtain ⟨hlt, -⟩ := Array.findIdx?_eq_some_iff_getElem.1 hid
    exact ⟨by rw [targetOf, hid]; rfl, hlt⟩
  · contradiction

theorem resolve_eq (b : Builder) :
    b.resolve = (b.pending.toList.map Prod.snd).mapM b.find >>= fun _ =>
      .ok (b.resolved b.targetOf) := by
  rw [resolve, resolved]
  generalize b.atoms = atoms
  induction b.pending.toList generalizing atoms with
  | nil => rfl
  | cons p pending ih =>
      obtain ⟨id, name⟩ := p
      rw [List.foldlM_cons, List.map_cons, List.mapM_cons, List.foldl_cons]
      dsimp only
      cases hfind : b.find name with
      | error e => rfl
      | ok r =>
          refine (ih (atoms.setIfInBounds id (.rule r))).trans ?_
          rw [(find_eq_ok hfind).1]
          generalize (pending.map Prod.snd).mapM b.find = names
          cases names <;> rfl

theorem find_of_mapM {names : List String} {rs : List RuleId} (h : names.mapM b.find = .ok rs)
    {name : String} (hname : name ∈ names) : ∃ r, b.find name = .ok r := by
  obtain ⟨i, hi⟩ := List.getElem?_of_mem hname
  obtain ⟨r, -, hr⟩ := Grammar.getElem?_mapM h hi
  exact ⟨r, hr⟩

theorem duplicate?_congr {seen : List String} {rules rules' : List Rule}
    (h : rules.map Rule.name = rules'.map Rule.name) :
    duplicate? seen rules = duplicate? seen rules' := by
  induction rules generalizing seen rules' with
  | nil =>
      rw [List.map_nil, eq_comm, List.map_eq_nil_iff] at h
      rw [h]
  | cons rule rules ih =>
      cases rules' with
      | nil => contradiction
      | cons rule' rules' =>
          rw [List.map_cons, List.map_cons, List.cons.injEq] at h
          rw [duplicate?, duplicate?, h.1, ih h.2]

namespace Matching

theorem find_eq (h : Matching target b b') : b.find = b'.find := by
  funext name
  rw [find, find, h.findIdx?_eq]

theorem sameTables (h : Matching b.targetOf b b') {rs : List RuleId}
    (hfound : (b.pending.toList.map Prod.snd).mapM b.find = .ok rs) :
    Grammar.SameTables (b.resolved b.targetOf) (b'.resolved b.targetOf) b.rules b'.rules := by
  have hlt : ∀ name ∈ b.pending.toList.map Prod.snd, b.targetOf name < b.rules.size := by
    intro name hname
    obtain ⟨r, hr⟩ := find_of_mapM hfound hname
    obtain ⟨rfl, hlt⟩ := find_eq_ok hr
    exact hlt
  refine ⟨h.toSameRules, h.terminals, fun hid => ⟨h.tidy.child_lt hid, ?_⟩,
    fun hid => ⟨h.tidy'.child_lt hid, ?_⟩⟩
  · rintro r rfl
    obtain ⟨p, hp, rfl⟩ := h.tidy.ref hid
    exact hlt p.2 (List.mem_map_of_mem hp)
  · rintro r rfl
    obtain ⟨p, hp, rfl⟩ := h.tidy'.ref hid
    rw [← h.size]
    refine hlt p.2 ?_
    rw [h.names]
    exact List.mem_map_of_mem hp

/-- Builders that agree up to how series are nested build grammars that do. -/
theorem build_concur (h : Matching b.targetOf b b') : Concur Grammar.Alike b.build b'.build := by
  have htarget : b'.targetOf = b.targetOf := by
    funext name
    rw [targetOf, targetOf, h.findIdx?_eq]
  unfold build
  rw [resolve_eq, resolve_eq, htarget, ← h.names, ← h.find_eq, ← h.start,
    ← duplicate?_congr h.ruleNames]
  cases duplicate? [] b.rules.toList with
  | some name => exact .error _
  | none =>
      cases hfound : (b.pending.toList.map Prod.snd).mapM b.find with
      | error e => exact .error e
      | ok rs =>
          have htables := h.sameTables hfound
          cases b.start with
          | none => exact htables.ofParts_concur 0
          | some name =>
              exact (Concur.rfl (b.find name)).bind fun root _ heq =>
                heq ▸ htables.ofParts_concur root

end Matching

end Builder

end Seedling
