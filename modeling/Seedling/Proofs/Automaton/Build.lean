import Seedling.Proofs.Automaton.Path

/-!
How automata grow. Adding a state adds no edge; adding an edge adds exactly that edge; embedding
an automaton adds its edges with all states moved up. Whatever is added, the tables keep fitting
together.
-/

namespace Seedling.Automaton.Nfa

variable {nfa : Nfa}

theorem wellFormed_empty : empty.WellFormed := by
  refine ⟨rfl, rfl, ?_⟩
  intro s o t h
  cases o <;> exact absurd h (SortedSet.not_mem_empty t)

/-! ### States -/

@[simp] theorem size_addNamed (nfa : Nfa) (name : String) :
    (nfa.addNamed name).size = nfa.size + 1 := by
  simp [addNamed, size]

@[simp] theorem size_addState (nfa : Nfa) : nfa.addState.size = nfa.size + 1 :=
  size_addNamed nfa _

theorem row_addNamed (nfa : Nfa) (name : String) (s : Nat) :
    (nfa.addNamed name).row s = nfa.row s := by
  simp only [row, addNamed, Array.getElem?_push]
  split
  · rename_i h
    rw [h, Array.getElem?_eq_none (Nat.le_refl _)]
    rfl
  · rfl

@[simp] theorem edge_addNamed {name : String} {s t : Nat} {o : Option UInt8} :
    (nfa.addNamed name).Edge s o t ↔ nfa.Edge s o t := by
  have hepsilon : (nfa.addNamed name).epsilon s = nfa.epsilon s := by
    simp only [epsilon, addNamed, Array.getElem?_push]
    split
    · rename_i h
      rw [h, Array.getElem?_eq_none (Nat.le_refl _)]
      rfl
    · rfl
  cases o with
  | none => rw [Edge, Edge, hepsilon]
  | some b => rw [Edge, Edge, targets, targets, row_addNamed]

@[simp] theorem edge_addState {s t : Nat} {o : Option UInt8} :
    nfa.addState.Edge s o t ↔ nfa.Edge s o t :=
  edge_addNamed

theorem Tabled.addNamed (h : nfa.Tabled) (name : String) : (nfa.addNamed name).Tabled := by
  constructor
  · rw [size_addNamed, ← h.edges_size]
    simp [Nfa.addNamed]
  · rw [size_addNamed, ← h.epsilons_size]
    simp [Nfa.addNamed]

theorem WellFormed.addNamed (h : nfa.WellFormed) (name : String) :
    (nfa.addNamed name).WellFormed := by
  obtain ⟨hedges, hepsilons⟩ := h.tabled.addNamed name
  refine ⟨hedges, hepsilons, ?_⟩
  intro s o t hedge
  rw [size_addNamed]
  exact Nat.lt_succ_of_lt (h.target_lt (edge_addNamed.1 hedge))

theorem WellFormed.addState (h : nfa.WellFormed) : nfa.addState.WellFormed := h.addNamed _

/-! ### Edges -/

@[simp] theorem size_addEdge (nfa : Nfa) (s : Nat) (b : UInt8) (t : Nat) :
    (nfa.addEdge s b t).size = nfa.size := rfl

@[simp] theorem size_addEpsilon (nfa : Nfa) (s t : Nat) :
    (nfa.addEpsilon s t).size = nfa.size := rfl

theorem row_addEdge (nfa : Nfa) (s : Nat) (b : UInt8) (t x : Nat) :
    (nfa.addEdge s b t).row x =
      if s = x ∧ x < nfa.edges.size then
        (nfa.row x).upsert b fun targets => (targets.getD .empty).insert t
      else nfa.row x := by
  simp only [row, addEdge, Array.getElem?_modify]
  by_cases hx : x < nfa.edges.size
  · rw [Array.getElem?_eq_getElem hx]
    by_cases hs : s = x
    · simp [hs, hx]
    · simp [hs]
  · rw [Array.getElem?_eq_none (Nat.le_of_not_lt hx)]
    simp [hx]

theorem edge_addEdge (hwf : nfa.WellFormed) {s t x y : Nat} {b : UInt8} {o : Option UInt8}
    (hs : s < nfa.size) :
    (nfa.addEdge s b t).Edge x o y ↔ nfa.Edge x o y ∨ (x = s ∧ o = some b ∧ y = t) := by
  cases o with
  | none => simp [Edge, epsilon, addEdge]
  | some c =>
      have hlt : s < nfa.edges.size := hwf.edges_size ▸ hs
      rw [Edge, Edge, targets, targets, row_addEdge]
      by_cases hx : x = s
      · subst hx
        rw [if_pos ⟨rfl, hlt⟩, SortedMap.get?_upsert]
        by_cases hc : b = c
        · subst hc
          simp [or_comm]
        · simp [hc, Ne.symm hc]
      · rw [if_neg fun h => hx h.1.symm]
        simp [hx]

theorem edge_addEpsilon (hwf : nfa.WellFormed) {s t x y : Nat} {o : Option UInt8}
    (hs : s < nfa.size) :
    (nfa.addEpsilon s t).Edge x o y ↔ nfa.Edge x o y ∨ (x = s ∧ o = none ∧ y = t) := by
  cases o with
  | some b => simp [Edge, targets, row, addEpsilon]
  | none =>
      have hlt : s < nfa.epsilons.size := hwf.epsilons_size ▸ hs
      by_cases hx : x = s
      · subst hx
        have hepsilon : (nfa.addEpsilon x t).epsilon x = (nfa.epsilon x).insert t := by
          simp only [epsilon, addEpsilon, Array.getElem?_modify, if_true,
            Array.getElem?_eq_getElem hlt, Option.map_some, Option.getD_some]
        simp [Edge, hepsilon, or_comm]
      · have hepsilon : (nfa.addEpsilon s t).epsilon x = nfa.epsilon x := by
          simp [epsilon, addEpsilon, Array.getElem?_modify, Ne.symm hx]
        simp [Edge, hepsilon, hx]

theorem WellFormed.addEdge (hwf : nfa.WellFormed) {s t : Nat} {b : UInt8} (hs : s < nfa.size)
    (ht : t < nfa.size) : (nfa.addEdge s b t).WellFormed := by
  refine ⟨?_, hwf.epsilons_size, ?_⟩
  · rw [size_addEdge, ← hwf.edges_size]
    simp [Nfa.addEdge]
  · intro x o y hedge
    rcases (edge_addEdge hwf hs).1 hedge with h | ⟨_, _, rfl⟩
    · exact hwf.target_lt h
    · exact ht

theorem WellFormed.addEpsilon (hwf : nfa.WellFormed) {s t : Nat} (hs : s < nfa.size)
    (ht : t < nfa.size) : (nfa.addEpsilon s t).WellFormed := by
  refine ⟨hwf.edges_size, ?_, ?_⟩
  · rw [size_addEpsilon, ← hwf.epsilons_size]
    simp [Nfa.addEpsilon]
  · intro x o y hedge
    rcases (edge_addEpsilon hwf hs).1 hedge with h | ⟨_, _, rfl⟩
    · exact hwf.target_lt h
    · exact ht

theorem foldl_addEpsilon_spec (hwf : nfa.WellFormed) {s : Nat} (hs : s < nfa.size)
    {targets : List Nat} (ht : ∀ t ∈ targets, t < nfa.size) :
    (targets.foldl (fun nfa t => nfa.addEpsilon s t) nfa).WellFormed ∧
      (targets.foldl (fun nfa t => nfa.addEpsilon s t) nfa).size = nfa.size ∧
      ∀ x o y, (targets.foldl (fun nfa t => nfa.addEpsilon s t) nfa).Edge x o y ↔
        nfa.Edge x o y ∨ (x = s ∧ o = none ∧ y ∈ targets) := by
  induction targets generalizing nfa with
  | nil => simp [hwf]
  | cons t targets ih =>
      have hthere : t < nfa.size := ht t (by simp)
      obtain ⟨hwf', hsize, hedge⟩ := ih (hwf.addEpsilon hs hthere) hs
        fun u hu => ht u (by simp [hu])
      refine ⟨hwf', hsize, ?_⟩
      intro x o y
      rw [List.foldl_cons, hedge, edge_addEpsilon hwf hs, List.mem_cons]
      tauto

theorem addEpsilons_spec (hwf : nfa.WellFormed) {sources targets : List Nat}
    (hs : ∀ s ∈ sources, s < nfa.size) (ht : ∀ t ∈ targets, t < nfa.size) :
    (nfa.addEpsilons sources targets).WellFormed ∧
      (nfa.addEpsilons sources targets).size = nfa.size ∧
      ∀ x o y, (nfa.addEpsilons sources targets).Edge x o y ↔
        nfa.Edge x o y ∨ (x ∈ sources ∧ o = none ∧ y ∈ targets) := by
  induction sources generalizing nfa with
  | nil => simp [addEpsilons, hwf]
  | cons s sources ih =>
      obtain ⟨hwf₁, hsize₁, hedge₁⟩ := foldl_addEpsilon_spec hwf (hs s (by simp)) ht
      obtain ⟨hwf₂, hsize₂, hedge₂⟩ := ih hwf₁
        (fun u hu => hsize₁ ▸ hs u (by simp [hu])) (fun u hu => hsize₁ ▸ ht u hu)
      refine ⟨hwf₂, hsize₂.trans hsize₁, ?_⟩
      intro x o y
      change ((targets.foldl (fun nfa t => nfa.addEpsilon s t) nfa).addEpsilons sources
        targets).Edge x o y ↔ _
      rw [hedge₂, hedge₁, List.mem_cons]
      tauto

/-! ### Embedding -/

theorem foldl_addNamed_spec (h : nfa.Tabled) (names : List String) :
    (names.foldl addNamed nfa).Tabled ∧
      (names.foldl addNamed nfa).size = nfa.size + names.length ∧
      ∀ s o t, (names.foldl addNamed nfa).Edge s o t ↔ nfa.Edge s o t := by
  induction names generalizing nfa with
  | nil => simp [h]
  | cons name names ih =>
      obtain ⟨h', hsize, hedge⟩ := ih (h.addNamed name)
      refine ⟨h', ?_, ?_⟩
      · rw [List.foldl_cons, hsize, size_addNamed, List.length_cons]
        omega
      · intro s o t
        rw [List.foldl_cons, hedge, edge_addNamed]

@[simp] theorem mem_shift {k t : Nat} {states : StateSet} :
    t ∈ shift k states ↔ ∃ t', t' ∈ states ∧ t' + k = t := by
  simp [shift]

theorem mem_shiftRow {k t : Nat} {row : SortedMap UInt8 StateSet} {b : UInt8} :
    t ∈ ((shiftRow k row).get? b).getD .empty ↔
      ∃ t', t' ∈ (row.get? b).getD .empty ∧ t' + k = t := by
  rw [shiftRow, SortedMap.get?_filterMapValues]
  cases row.get? b with
  | none => simp
  | some states =>
      simp only [Option.bind_some, Option.getD_some]
      split
      · rename_i hempty
        have hnone : ∀ t', ¬ t' ∈ states := by
          intro t' ht'
          have hnil : states.toList = [] := by simpa [SortedSet.isEmpty] using hempty
          rw [← SortedSet.mem_toList, hnil] at ht'
          exact List.not_mem_nil ht'
        simp [hnone]
      · simp

theorem exists_mem_shiftRow {k : Nat} {row : SortedMap UInt8 StateSet} {b : UInt8}
    {targets : StateSet} (h : (shiftRow k row).get? b = some targets) : ∃ t, t ∈ targets := by
  rw [shiftRow, SortedMap.get?_filterMapValues] at h
  obtain ⟨states, -, hstates⟩ := Option.bind_eq_some_iff.1 h
  split at hstates
  · contradiction
  · rename_i hempty
    obtain rfl := Option.some.inj hstates
    obtain ⟨t, ht⟩ := List.exists_mem_of_ne_nil states.toList
      (by simpa [SortedSet.isEmpty] using hempty)
    exact ⟨t + k, mem_shift.2 ⟨t, ht, rfl⟩⟩

theorem mem_getD_merge {t : Nat} {a b : Option StateSet} :
    t ∈ (Option.merge SortedSet.union a b).getD .empty ↔
      t ∈ a.getD .empty ∨ t ∈ b.getD .empty := by
  cases a <;> cases b <;> simp [Option.merge]

theorem getD_mapIdx {α : Type} {a : Array α} {p : Nat → Bool} {s : Nat}
    (h : p s = true → s < a.size) (f : Nat → α → α) (fallback : α) :
    ((a.mapIdx fun i x => if p i then f i x else x)[s]?).getD fallback =
      if p s then f s (a[s]?.getD fallback) else a[s]?.getD fallback := by
  rw [Array.getElem?_mapIdx]
  by_cases hp : p s = true
  · rw [Array.getElem?_eq_getElem (h hp), Option.map_some, Option.getD_some, Option.getD_some]
  · cases a[s]? with
    | none => simp [hp]
    | some x => simp [hp]

def isCopy (nfa other : Nfa) (s : Nat) : Bool := nfa.size ≤ s && s < nfa.size + other.size

theorem isCopy_iff {other : Nfa} {s : Nat} :
    nfa.isCopy other s = true ↔ nfa.size ≤ s ∧ s < nfa.size + other.size := by
  simp [isCopy]

/-- An automaton with room for the states of another. -/
def widen (nfa other : Nfa) : Nfa := other.names.foldl addNamed nfa

theorem widen_spec (h : nfa.Tabled) (other : Nfa) :
    (nfa.widen other).Tabled ∧ (nfa.widen other).size = nfa.size + other.size ∧
      ∀ s o t, (nfa.widen other).Edge s o t ↔ nfa.Edge s o t := by
  rw [widen, ← Array.foldl_toList]
  exact foldl_addNamed_spec h other.names.toList

theorem widen_start (nfa other : Nfa) :
    (nfa.widen other).start = nfa.start ∧ (nfa.widen other).final = nfa.final := by
  rw [widen, ← Array.foldl_toList]
  induction other.names.toList generalizing nfa with
  | nil => exact ⟨rfl, rfl⟩
  | cons name names ih => exact ih (nfa.addNamed name)

theorem epsilon_embed (htab : nfa.Tabled) (other : Nfa) (s : Nat) :
    (nfa.embed other).epsilon s =
      if nfa.isCopy other s then
        ((nfa.widen other).epsilon s).union (shift nfa.size (other.epsilon (s - nfa.size)))
      else (nfa.widen other).epsilon s := by
  obtain ⟨htab', hsize, _⟩ := widen_spec htab other
  refine getD_mapIdx (p := nfa.isCopy other) (fun h => ?_)
    (fun i (targets : StateSet) => targets.union (shift nfa.size (other.epsilon (i - nfa.size))))
    SortedSet.empty
  change s < (nfa.widen other).epsilons.size
  rw [htab'.epsilons_size, hsize]
  exact (isCopy_iff.1 h).2

theorem row_embed (htab : nfa.Tabled) (other : Nfa) (s : Nat) :
    (nfa.embed other).row s =
      if nfa.isCopy other s then
        ((nfa.widen other).row s).mergeWith SortedSet.union
          (shiftRow nfa.size (other.row (s - nfa.size)))
      else (nfa.widen other).row s := by
  obtain ⟨htab', hsize, _⟩ := widen_spec htab other
  refine getD_mapIdx (p := nfa.isCopy other) (fun h => ?_)
    (fun i (row : SortedMap UInt8 StateSet) =>
      row.mergeWith SortedSet.union (shiftRow nfa.size (other.row (i - nfa.size))))
    SortedMap.empty
  change s < (nfa.widen other).edges.size
  rw [htab'.edges_size, hsize]
  exact (isCopy_iff.1 h).2

theorem edge_embed_of_isCopy {other : Nfa} (htab : nfa.Tabled) {s t : Nat}
    {o : Option UInt8} :
    (nfa.embed other).Edge s o t ↔ nfa.Edge s o t ∨
      (nfa.isCopy other s = true ∧ ∃ t', other.Edge (s - nfa.size) o t' ∧ t' + nfa.size = t) := by
  rw [← (widen_spec htab other).2.2 s o t]
  cases o with
  | none =>
      simp only [Edge, epsilon_embed htab]
      split
      · rename_i h
        simp [h]
      · rename_i h
        simp [h]
  | some b =>
      simp only [Edge, targets, row_embed htab]
      split
      · rename_i h
        rw [SortedMap.get?_mergeWith, mem_getD_merge, mem_shiftRow]
        simp [h]
      · rename_i h
        simp [h]

theorem Tabled.source_lt (htab : nfa.Tabled) {s t : Nat} {o : Option UInt8}
    (h : nfa.Edge s o t) : s < nfa.size := by
  refine Nat.lt_of_not_le fun hs => ?_
  cases o with
  | none =>
      have hepsilon : nfa.epsilon s = .empty := by
        rw [epsilon, Array.getElem?_eq_none (htab.epsilons_size ▸ hs)]
        rfl
      rw [Edge, hepsilon] at h
      exact SortedSet.not_mem_empty t h
  | some b =>
      have hrow : nfa.row s = .empty := by
        rw [row, Array.getElem?_eq_none (htab.edges_size ▸ hs)]
        rfl
      rw [Edge, targets, hrow, SortedMap.get?_empty] at h
      exact SortedSet.not_mem_empty t h

theorem WellFormed.source_lt (hwf : nfa.WellFormed) {s t : Nat} {o : Option UInt8}
    (h : nfa.Edge s o t) : s < nfa.size :=
  hwf.tabled.source_lt h

/-- An embedding has the edges of both automata, those of the second moved up. -/
theorem edge_embed {other : Nfa} (htab : nfa.Tabled) (hother : other.WellFormed) {s t : Nat}
    {o : Option UInt8} :
    (nfa.embed other).Edge s o t ↔ nfa.Edge s o t ∨
      ∃ s' t', other.Edge s' o t' ∧ s' + nfa.size = s ∧ t' + nfa.size = t := by
  rw [edge_embed_of_isCopy htab, isCopy_iff]
  apply or_congr_right
  constructor
  · rintro ⟨⟨hle, _⟩, t', hedge, ht⟩
    exact ⟨s - nfa.size, t', hedge, Nat.sub_add_cancel hle, ht⟩
  · rintro ⟨s', t', hedge, rfl, ht⟩
    have hlt := hother.source_lt hedge
    rw [Nat.add_sub_cancel]
    exact ⟨⟨by omega, by omega⟩, t', hedge, ht⟩

theorem size_embed (htab : nfa.Tabled) (other : Nfa) :
    (nfa.embed other).size = nfa.size + other.size := (widen_spec htab other).2.1

theorem Tabled.embed (htab : nfa.Tabled) (other : Nfa) : (nfa.embed other).Tabled := by
  obtain ⟨htab', hsize, _⟩ := widen_spec htab other
  constructor
  · rw [size_embed htab, ← hsize, ← htab'.edges_size]
    exact Array.size_mapIdx
  · rw [size_embed htab, ← hsize, ← htab'.epsilons_size]
    exact Array.size_mapIdx

theorem WellFormed.embed {other : Nfa} (hwf : nfa.WellFormed) (hother : other.WellFormed) :
    (nfa.embed other).WellFormed := by
  obtain ⟨hedges, hepsilons⟩ := hwf.tabled.embed other
  refine ⟨hedges, hepsilons, ?_⟩
  intro s o t h
  rw [size_embed hwf.tabled]
  rcases (edge_embed hwf.tabled hother).1 h with hold | ⟨s', t', hnew, _, rfl⟩
  · exact Nat.lt_of_lt_of_le (hwf.target_lt hold) (Nat.le_add_right _ _)
  · have hlt := hother.target_lt hnew
    omega

/-- Among the added states the paths are those of the embedded automaton. -/
theorem path_embed {other : Nfa} (htab : nfa.Tabled) (hother : other.WellFormed) {s u : Nat}
    {w : List UInt8} :
    (nfa.embed other).Path (s + nfa.size) w u ↔
      ∃ u', other.Path s w u' ∧ u' + nfa.size = u := by
  constructor
  · intro hp
    generalize hs : s + nfa.size = x at hp
    induction hp generalizing s with
    | nil x => exact ⟨s, .nil s, hs⟩
    | step hedge _ ih =>
        rcases (edge_embed htab hother).1 hedge with hold | ⟨s', t', hnew, hs', ht'⟩
        · have hlt := htab.source_lt hold
          omega
        · obtain rfl : s' = s := by omega
          obtain ⟨u', hpath, hu⟩ := ih ht'
          exact ⟨u', .step hnew hpath, hu⟩
  · rintro ⟨u', hp, rfl⟩
    induction hp with
    | nil s => exact .nil _
    | step hedge _ ih =>
        exact .step ((edge_embed htab hother).2 (.inr ⟨_, _, hedge, rfl, rfl⟩)) ih

end Seedling.Automaton.Nfa
