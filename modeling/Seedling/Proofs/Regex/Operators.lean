import Seedling.Proofs.Regex.Fragment

/-!
The operators on fragments. For each of them the words that lead to an exit are guessed for
every state, operand by operand: inside an operand they are the words that lead to one of its
exits, followed by what is read after it. A guess that every edge bears out bounds the accepted
words from above; the paths of the operands, joined by the added edges, bound them from below.
-/

namespace Seedling.Regex

open Automaton

variable {nfa nfa₁ nfa₂ : Nfa} {x y : Fragment} {k l : Language UInt8}

/-- Edges out of the states of an operand are its own. -/
theorem Grows.edge_lt (h : Grows nfa nfa₁) {s t : Nat} {o : Option UInt8} (hs : s < nfa.size)
    (hedge : nfa₁.Edge s o t) : nfa.Edge s o t ∧ t < nfa.size := by
  have hold := (h.old hs).1 hedge
  exact ⟨hold, h.base.target_lt hold⟩

/-! ### Words that lead to an exit -/

/-- The words that lead from a state to an exit of a fragment, each followed by a word of `rest`. -/
def Fragment.after (x : Fragment) (nfa : Nfa) (rest : Language UInt8) (s : Nat) :
    Language UInt8 :=
  {w | ∃ f ∈ x.finals, ∃ u v, nfa.Path s u f ∧ v ∈ rest ∧ u ++ v = w}

/-- One guess for the states of an automaton, another one for those that are added to it. -/
def within (nfa : Nfa) (inner outer : Nat → Language UInt8) (s : Nat) : Language UInt8 :=
  if s < nfa.size then inner s else outer s

/-- A guess for each state that every edge bears out. -/
def Guess (nfa : Nfa) (guess : Nat → Language UInt8) : Prop :=
  ∀ s o t w, nfa.Edge s o t → w ∈ guess t → o.toList ++ w ∈ guess s

section Guesses

variable {rest : Language UInt8} {inner outer : Nat → Language UInt8} {s t : Nat} {w : List UInt8}

theorem within_of_lt (hs : s < nfa.size) : within nfa inner outer s = inner s := if_pos hs

theorem within_of_le (hs : nfa.size ≤ s) : within nfa inner outer s = outer s :=
  if_neg (Nat.not_lt_of_le hs)

theorem Guess.mem_of_path {guess : Nat → Language UInt8} (h : Guess nfa guess)
    (hp : nfa.Path s w t) (ht : [] ∈ guess t) : w ∈ guess s := by
  have hw := Nfa.Path.sound (fun s w => w ∈ guess s) h hp ht
  rwa [List.append_nil] at hw

theorem guess_after (x : Fragment) (nfa : Nfa) (rest : Language UInt8) :
    Guess nfa (x.after nfa rest) := by
  rintro s o t _ hst ⟨f, hf, u, v, hp, hv, rfl⟩
  exact ⟨f, hf, o.toList ++ u, v, .step hst hp, hv, List.append_assoc ..⟩

theorem mem_after_of_mem_finals (hs : s ∈ x.finals) (hw : w ∈ rest) : w ∈ x.after nfa rest s :=
  ⟨s, hs, [], w, .nil s, hw, rfl⟩

/-- From the entries of a fragment one reads a word of its language first. -/
theorem Builds.mem_mul_of_mem_after (hx : Builds k nfa x nfa₁) (hs : s ∈ x.starts)
    (hw : w ∈ x.after nfa₁ rest s) : w ∈ k * rest := by
  obtain ⟨f, hf, u, v, hp, hv, rfl⟩ := hw
  exact Language.mem_mul.2 ⟨u, (hx.accepts u).2 ⟨s, hs, f, hf, hp⟩, v, hv, rfl⟩

theorem Builds.mem_of_mem_after (hx : Builds k nfa x nfa₁) (hs : s ∈ x.starts)
    (hw : w ∈ x.after nfa₁ 1 s) : w ∈ k := by
  have hmul := hx.mem_mul_of_mem_after hs hw
  rwa [mul_one] at hmul

/-- Edges of the automaton stay in it and are borne out there. -/
theorem Guess.within (h : Guess nfa inner) (hwf : nfa.WellFormed) (outer : Nat → Language UInt8) :
    Guess nfa (within nfa inner outer) := by
  intro s o t w hst hw
  rw [within_of_lt (hwf.target_lt hst)] at hw
  rw [within_of_lt (hwf.source_lt hst)]
  exact h s o t w hst hw

/-- Two operands are borne out one by one, since no edge leads from one to the other. -/
theorem Guess.within_grows {middle : Nat → Language UInt8} (h : Guess nfa₁ inner)
    (h' : Guess nfa₂ middle) (hgrows : Grows nfa₁ nfa₂) :
    Guess nfa₂ (Regex.within nfa₁ inner (Regex.within nfa₂ middle outer)) := by
  intro s o t w hst hw
  by_cases hs : s < nfa₁.size
  · obtain ⟨hst, ht⟩ := hgrows.edge_lt hs hst
    rw [within_of_lt ht] at hw
    rw [within_of_lt hs]
    exact h s o t w hst hw
  · have hs := Nat.le_of_not_lt hs
    rw [within_of_le (hgrows.new hs hst)] at hw
    rw [within_of_le hs]
    exact h'.within hgrows.wellFormed outer s o t w hst hw

end Guesses

/-! ### Tags -/

theorem edge_unmergeable {marks : StateSet} {s t : Nat} {o : Option UInt8} :
    Nfa.Edge { nfa with unmergeable := marks } s o t ↔ nfa.Edge s o t := by
  cases o <;> exact Iff.rfl

theorem Grows.unmergeable (h : Grows nfa nfa₁) (marks : StateSet) :
    Grows nfa { nfa₁ with unmergeable := marks } := by
  refine ⟨h.base, ⟨h.wellFormed.edges_size, h.wellFormed.epsilons_size, ?_⟩, h.size_le, ?_, ?_,
    h.start_eq, h.final_eq⟩
  · exact fun hedge => h.wellFormed.target_lt (edge_unmergeable.1 hedge)
  · exact fun hs => edge_unmergeable.trans (h.old hs)
  · exact fun hs hedge => h.new hs (edge_unmergeable.1 hedge)

theorem addTag_edges (hx : Builds k nfa x nfa₁) (name : String) :
    Grows nfa (addTag x.finals name nfa₁).2 ∧
      (addTag x.finals name nfa₁).2.size = nfa₁.size + 1 ∧
      ∀ s o t, (addTag x.finals name nfa₁).2.Edge s o t ↔
        nfa₁.Edge s o t ∨ (s ∈ x.finals ∧ o = none ∧ t ∈ [nfa₁.size]) := by
  have hle := hx.grows.size_le
  have hsize := Nfa.size_addNamed nfa₁ name
  have hfinals : ∀ f ∈ x.finals, nfa.size ≤ f ∧ f < (nfa₁.addNamed name).size := by
    intro f hf
    have hin := hx.finals f hf
    omega
  have hmark : ∀ s ∈ [nfa₁.size], nfa.size ≤ s ∧ s < (nfa₁.addNamed name).size := by
    intro s hs
    obtain rfl := List.mem_singleton.1 hs
    omega
  obtain ⟨hgrows, hsize', hedge⟩ := ((hx.grows.addNamed name).unmergeable
    ((nfa₁.addNamed name).unmergeable.insert nfa₁.size)).addEpsilons hfinals hmark
  refine ⟨hgrows, hsize'.trans hsize, ?_⟩
  intro s o t
  rw [addTag, hedge, edge_unmergeable, Nfa.edge_addNamed]

theorem builds_tag (hx : Builds k nfa x nfa₁) (name : String) :
    Builds k nfa ⟨x.starts, [nfa₁.size]⟩ (addTag x.finals name nfa₁).2 := by
  obtain ⟨hgrows, hsize, hedge⟩ := addTag_edges hx name
  generalize (addTag x.finals name nfa₁).2 = nfa₃ at hgrows hsize hedge
  have hle := hx.grows.size_le
  refine ⟨hgrows, ?_, ?_, ?_⟩
  · intro s hs
    have hin := hx.starts s hs
    omega
  · intro f hf
    obtain rfl := List.mem_singleton.1 hf
    omega
  · intro w
    simp only [List.mem_singleton, exists_eq_left, hx.accepts w]
    constructor
    · rintro ⟨s, hs, f, hf, hp⟩
      have hp' : nfa₃.Path s w f := hp.mono fun _ _ _ h => (hedge _ _ _).2 (.inl h)
      have hlast : nfa₃.Path f [] nfa₁.size :=
        Nfa.Path.single (o := none) ((hedge _ _ _).2 (.inr ⟨hf, rfl, by simp⟩))
      exact ⟨s, hs, by simpa using hp'.append hlast⟩
    · rintro ⟨s, hs, hp⟩
      -- From a state of the operand one reads a word to an exit, from the mark nothing.
      have hguess : Guess nfa₃ (within nfa₁ (x.after nfa₁ 1) fun _ => 1) := by
        intro s o t w hst hw
        rcases (hedge s o t).1 hst with hst | ⟨hs, rfl, ht⟩
        · exact (guess_after x nfa₁ 1).within hx.grows.wellFormed _ s o t w hst hw
        · obtain rfl := List.mem_singleton.1 ht
          rw [within_of_le (Nat.le_refl _)] at hw
          rw [within_of_lt (hx.finals s hs).2]
          exact mem_after_of_mem_finals hs hw
      have hw := hguess.mem_of_path hp ?_
      · rw [within_of_lt (hx.starts s hs).2] at hw
        exact (hx.accepts w).1 (hx.mem_of_mem_after hs hw)
      · rw [within_of_le (Nat.le_refl _)]
        exact Language.nil_mem_one

/-! ### Concatenation -/

/-- The exits of one fragment joined to the entries of another by a new state. -/
def join (x y : Fragment) (nfa : Nfa) : Nfa :=
  (nfa.addState.addEpsilons x.finals [nfa.size]).addEpsilons [nfa.size] y.starts

theorem join_edges (hx : Builds k nfa x nfa₁) (hy : Builds l nfa₁ y nfa₂) :
    Grows nfa (join x y nfa₂) ∧ (join x y nfa₂).size = nfa₂.size + 1 ∧
      ∀ s o t, (join x y nfa₂).Edge s o t ↔
        (nfa₂.Edge s o t ∨ (s ∈ x.finals ∧ o = none ∧ t ∈ [nfa₂.size])) ∨
          (s ∈ [nfa₂.size] ∧ o = none ∧ t ∈ y.starts) := by
  have hle₁ := hx.grows.size_le
  have hle₂ := hy.grows.size_le
  have hsize := Nfa.size_addState nfa₂
  have hfinals : ∀ f ∈ x.finals, nfa.size ≤ f ∧ f < nfa₂.addState.size := by
    intro f hf
    have hin := hx.finals f hf
    omega
  have hjoiner : ∀ s ∈ [nfa₂.size], nfa.size ≤ s ∧ s < nfa₂.addState.size := by
    intro s hs
    obtain rfl := List.mem_singleton.1 hs
    omega
  obtain ⟨hgrows₁, hsize₁, hedge₁⟩ :=
    (hx.grows.trans hy.grows).addState.addEpsilons hfinals hjoiner
  rw [← hsize₁] at hjoiner
  have hstarts : ∀ s ∈ y.starts, nfa.size ≤ s ∧
      s < (nfa₂.addState.addEpsilons x.finals [nfa₂.size]).size := by
    intro s hs
    have hin := hy.starts s hs
    omega
  obtain ⟨hgrows₂, hsize₂, hedge₂⟩ := hgrows₁.addEpsilons hjoiner hstarts
  refine ⟨hgrows₂, (hsize₂.trans hsize₁).trans hsize, ?_⟩
  intro s o t
  rw [join, hedge₂, hedge₁, Nfa.edge_addState]

/-- Behind the first operand, and at the state between them, one reads a word of the second. -/
theorem guess_join {nfa₃ : Nfa} (hx : Builds k nfa x nfa₁) (hy : Builds l nfa₁ y nfa₂)
    (hedge : ∀ s o t, nfa₃.Edge s o t ↔
      (nfa₂.Edge s o t ∨ (s ∈ x.finals ∧ o = none ∧ t ∈ [nfa₂.size])) ∨
        (s ∈ [nfa₂.size] ∧ o = none ∧ t ∈ y.starts)) :
    Guess nfa₃ (within nfa₁ (x.after nfa₁ l) (within nfa₂ (y.after nfa₂ 1) fun _ => l)) := by
  have hle := hy.grows.size_le
  intro s o t w hst hw
  rcases (hedge s o t).1 hst with (hst | ⟨hs, rfl, ht⟩) | ⟨hs, rfl, ht⟩
  · exact (guess_after x nfa₁ l).within_grows (guess_after y nfa₂ 1) hy.grows s o t w hst hw
  · obtain rfl := List.mem_singleton.1 ht
    rw [within_of_le hle, within_of_le (Nat.le_refl _)] at hw
    rw [within_of_lt (hx.finals s hs).2]
    exact mem_after_of_mem_finals hs hw
  · obtain rfl := List.mem_singleton.1 hs
    obtain ⟨hge, hlt⟩ := hy.starts t ht
    rw [within_of_le hge, within_of_lt hlt] at hw
    rw [within_of_le hle, within_of_le (Nat.le_refl _)]
    exact hy.mem_of_mem_after ht hw

theorem builds_concat (hx : Builds k nfa x nfa₁) (hy : Builds l nfa₁ y nfa₂) :
    Builds (k * l) nfa ⟨x.starts, y.finals⟩ (join x y nfa₂) := by
  obtain ⟨hgrows, hsize, hedge⟩ := join_edges hx hy
  generalize join x y nfa₂ = nfa₃ at hgrows hsize hedge
  have hle₁ := hx.grows.size_le
  have hle₂ := hy.grows.size_le
  refine ⟨hgrows, ?_, ?_, ?_⟩
  · intro s hs
    have hin := hx.starts s hs
    omega
  · intro f hf
    have hin := hy.finals f hf
    omega
  · intro w
    constructor
    · intro hw
      obtain ⟨u, hu, v, hv, rfl⟩ := Language.mem_mul.1 hw
      obtain ⟨s, hs, f, hf, hp⟩ := (hx.accepts u).1 hu
      obtain ⟨s', hs', f', hf', hp'⟩ := (hy.accepts v).1 hv
      have hin : ∀ a o b, nfa₂.Edge a o b → nfa₃.Edge a o b := fun _ _ _ h =>
        (hedge _ _ _).2 (.inl (.inl h))
      have hjoin : nfa₃.Edge f none nfa₂.size :=
        (hedge _ _ _).2 (.inl (.inr ⟨hf, rfl, by simp⟩))
      have hleave : nfa₃.Edge nfa₂.size none s' := (hedge _ _ _).2 (.inr ⟨by simp, rfl, hs'⟩)
      exact ⟨s, hs, f', hf', ((hy.grows.path hp).mono hin).append
        (.step hjoin (.step hleave (hp'.mono hin)))⟩
    · rintro ⟨s, hs, f, hf, hp⟩
      have hw := (guess_join hx hy hedge).mem_of_path hp ?_
      · rw [within_of_lt (hx.starts s hs).2] at hw
        exact hx.mem_mul_of_mem_after hs hw
      · rw [within_of_le (hy.finals f hf).1, within_of_lt (hy.finals f hf).2]
        exact mem_after_of_mem_finals hf Language.nil_mem_one

/-! ### Alternatives and repetition

Both put their operands between a new entry and a new exit. -/

/-- A new entry that leads to `starts` and a new exit that is reached from `finals`. -/
def enclose (starts finals : List Nat) (nfa : Nfa) : Nfa :=
  (nfa.addState.addState.addEpsilons [nfa.size] starts).addEpsilons finals [nfa.size + 1]

theorem enclose_edges (h : Grows nfa nfa₁) {starts finals : List Nat}
    (hstarts : ∀ s ∈ starts, nfa.size ≤ s ∧ s < nfa₁.size)
    (hfinals : ∀ f ∈ finals, nfa.size ≤ f ∧ f < nfa₁.size) :
    Grows nfa (enclose starts finals nfa₁) ∧
      (enclose starts finals nfa₁).size = nfa₁.size + 2 ∧
      ∀ s o t, (enclose starts finals nfa₁).Edge s o t ↔
        (nfa₁.Edge s o t ∨ (s ∈ [nfa₁.size] ∧ o = none ∧ t ∈ starts)) ∨
          (s ∈ finals ∧ o = none ∧ t ∈ [nfa₁.size + 1]) := by
  have hle := h.size_le
  have hsize : nfa₁.addState.addState.size = nfa₁.size + 2 := by simp
  have hentry : ∀ s ∈ [nfa₁.size], nfa.size ≤ s ∧ s < nfa₁.addState.addState.size := by
    intro s hs
    obtain rfl := List.mem_singleton.1 hs
    omega
  have hstarts' : ∀ s ∈ starts, nfa.size ≤ s ∧ s < nfa₁.addState.addState.size := by
    intro s hs
    have hin := hstarts s hs
    omega
  obtain ⟨hgrows₁, hsize₁, hedge₁⟩ := h.addState.addState.addEpsilons hentry hstarts'
  have hfinals' : ∀ f ∈ finals, nfa.size ≤ f ∧
      f < (nfa₁.addState.addState.addEpsilons [nfa₁.size] starts).size := by
    intro f hf
    have hin := hfinals f hf
    omega
  have hexit : ∀ s ∈ [nfa₁.size + 1], nfa.size ≤ s ∧
      s < (nfa₁.addState.addState.addEpsilons [nfa₁.size] starts).size := by
    intro s hs
    obtain rfl := List.mem_singleton.1 hs
    omega
  obtain ⟨hgrows₂, hsize₂, hedge₂⟩ := hgrows₁.addEpsilons hfinals' hexit
  refine ⟨hgrows₂, (hsize₂.trans hsize₁).trans hsize, ?_⟩
  intro s o t
  rw [enclose, hedge₂, hedge₁, Nfa.edge_addState, Nfa.edge_addState]

/-- The entry and the exit of a repetition lead to each other. -/
def loop (x : Fragment) (nfa : Nfa) : Nfa :=
  ((enclose x.starts x.finals nfa).addEpsilon nfa.size (nfa.size + 1)).addEpsilon
    (nfa.size + 1) nfa.size

theorem loop_edges (hx : Builds k nfa x nfa₁) :
    Grows nfa (loop x nfa₁) ∧ (loop x nfa₁).size = nfa₁.size + 2 ∧
      ∀ s o t, (loop x nfa₁).Edge s o t ↔
        (((nfa₁.Edge s o t ∨ (s ∈ [nfa₁.size] ∧ o = none ∧ t ∈ x.starts)) ∨
          (s ∈ x.finals ∧ o = none ∧ t ∈ [nfa₁.size + 1])) ∨
          (s = nfa₁.size ∧ o = none ∧ t = nfa₁.size + 1)) ∨
          (s = nfa₁.size + 1 ∧ o = none ∧ t = nfa₁.size) := by
  have hle := hx.grows.size_le
  obtain ⟨hgrows, hsize, hedge⟩ := enclose_edges hx.grows hx.starts hx.finals
  have hentry : nfa.size ≤ nfa₁.size ∧ nfa₁.size < (enclose x.starts x.finals nfa₁).size := by
    omega
  have hexit : nfa.size ≤ nfa₁.size + 1 ∧
      nfa₁.size + 1 < (enclose x.starts x.finals nfa₁).size := by
    omega
  obtain ⟨hgrows₁, hedge₁⟩ := hgrows.addEpsilon hentry hexit
  obtain ⟨hgrows₂, hedge₂⟩ := hgrows₁.addEpsilon hexit hentry
  refine ⟨hgrows₂, hsize, ?_⟩
  intro s o t
  rw [loop, hedge₂, hedge₁, hedge]

/-- Behind the operand, and at the entry and the exit, one may go on with the repetition. -/
theorem guess_loop {nfa₃ : Nfa} (hx : Builds k nfa x nfa₁)
    (hedge : ∀ s o t, nfa₃.Edge s o t ↔
      (((nfa₁.Edge s o t ∨ (s ∈ [nfa₁.size] ∧ o = none ∧ t ∈ x.starts)) ∨
        (s ∈ x.finals ∧ o = none ∧ t ∈ [nfa₁.size + 1])) ∨
        (s = nfa₁.size ∧ o = none ∧ t = nfa₁.size + 1)) ∨
        (s = nfa₁.size + 1 ∧ o = none ∧ t = nfa₁.size)) :
    Guess nfa₃ (within nfa₁ (x.after nfa₁ (KStar.kstar k)) fun _ => KStar.kstar k) := by
  intro s o t w hst hw
  rcases (hedge s o t).1 hst with
    (((hst | ⟨hs, rfl, ht⟩) | ⟨hs, rfl, ht⟩) | ⟨rfl, rfl, rfl⟩) | ⟨rfl, rfl, rfl⟩
  · exact (guess_after x nfa₁ _).within hx.grows.wellFormed _ s o t w hst hw
  · obtain rfl := List.mem_singleton.1 hs
    rw [within_of_lt (hx.starts t ht).2] at hw
    rw [within_of_le (Nat.le_refl _)]
    obtain ⟨u, hu, v, hv, rfl⟩ := Language.mem_mul.1 (hx.mem_mul_of_mem_after ht hw)
    show u ++ v ∈ KStar.kstar k
    exact append_mem_kstar hu hv
  · obtain rfl := List.mem_singleton.1 ht
    rw [within_of_le (Nat.le_succ _)] at hw
    rw [within_of_lt (hx.finals s hs).2]
    exact mem_after_of_mem_finals hs hw
  · rw [within_of_le (Nat.le_succ _)] at hw
    rw [within_of_le (Nat.le_refl _)]
    exact hw
  · rw [within_of_le (Nat.le_refl _)] at hw
    rw [within_of_le (Nat.le_succ _)]
    exact hw

theorem builds_star (hx : Builds k nfa x nfa₁) :
    Builds (KStar.kstar k) nfa ⟨[nfa₁.size], [nfa₁.size + 1]⟩ (loop x nfa₁) := by
  obtain ⟨hgrows, hsize, hedge⟩ := loop_edges hx
  generalize loop x nfa₁ = nfa₃ at hgrows hsize hedge
  have hle := hx.grows.size_le
  refine ⟨hgrows, ?_, ?_, ?_⟩
  · intro s hs
    obtain rfl := List.mem_singleton.1 hs
    omega
  · intro f hf
    obtain rfl := List.mem_singleton.1 hf
    omega
  · intro w
    simp only [List.mem_singleton, exists_eq_left]
    have hskip : nfa₃.Edge nfa₁.size none (nfa₁.size + 1) :=
      (hedge _ _ _).2 (.inl (.inr ⟨rfl, rfl, rfl⟩))
    have hback : nfa₃.Edge (nfa₁.size + 1) none nfa₁.size :=
      (hedge _ _ _).2 (.inr ⟨rfl, rfl, rfl⟩)
    constructor
    · intro hw
      obtain ⟨words, rfl, hwords⟩ := Language.mem_kstar.1 hw
      clear hw
      -- Each word leads through the operand and back from the exit to the entry.
      induction words with
      | nil => exact Nfa.Path.single hskip
      | cons u words ih =>
          obtain ⟨s, hs, f, hf, hp⟩ := (hx.accepts u).1 (hwords u (by simp))
          have henter : nfa₃.Edge nfa₁.size none s :=
            (hedge _ _ _).2 (.inl (.inl (.inl (.inr ⟨by simp, rfl, hs⟩))))
          have hleave : nfa₃.Edge f none (nfa₁.size + 1) :=
            (hedge _ _ _).2 (.inl (.inl (.inr ⟨hf, rfl, by simp⟩)))
          have hp' : nfa₃.Path s u f := hp.mono fun _ _ _ h =>
            (hedge _ _ _).2 (.inl (.inl (.inl (.inl h))))
          have hrest := ih fun v hv => hwords v (by simp [hv])
          exact .step henter (hp'.append (.step hleave (.step hback hrest)))
    · intro hp
      have hw := (guess_loop hx hedge).mem_of_path hp ?_
      · rwa [within_of_le (Nat.le_refl _)] at hw
      · rw [within_of_le (Nat.le_succ _)]
        exact Language.nil_mem_kstar k

/-- The entry leads to words of both operands; behind them and at the exit nothing is left to
read. -/
theorem guess_alternatives {nfa₃ : Nfa} (hx : Builds k nfa x nfa₁) (hy : Builds l nfa₁ y nfa₂)
    (hedge : ∀ s o t, nfa₃.Edge s o t ↔
      (nfa₂.Edge s o t ∨ (s ∈ [nfa₂.size] ∧ o = none ∧ t ∈ x.starts ++ y.starts)) ∨
        (s ∈ x.finals ++ y.finals ∧ o = none ∧ t ∈ [nfa₂.size + 1])) :
    Guess nfa₃ (within nfa₁ (x.after nfa₁ 1) (within nfa₂ (y.after nfa₂ 1) fun s =>
      if s = nfa₂.size then k + l else 1)) := by
  have hle := hy.grows.size_le
  intro s o t w hst hw
  rcases (hedge s o t).1 hst with (hst | ⟨hs, rfl, ht⟩) | ⟨hs, rfl, ht⟩
  · exact (guess_after x nfa₁ 1).within_grows (guess_after y nfa₂ 1) hy.grows s o t w hst hw
  · obtain rfl := List.mem_singleton.1 hs
    rw [within_of_le hle, within_of_le (Nat.le_refl _), if_pos rfl]
    rcases List.mem_append.1 ht with ht | ht
    · rw [within_of_lt (hx.starts t ht).2] at hw
      exact (Language.mem_add _ _ _).2 (.inl (hx.mem_of_mem_after ht hw))
    · obtain ⟨hge, hlt⟩ := hy.starts t ht
      rw [within_of_le hge, within_of_lt hlt] at hw
      exact (Language.mem_add _ _ _).2 (.inr (hy.mem_of_mem_after ht hw))
  · obtain rfl := List.mem_singleton.1 ht
    rw [within_of_le (Nat.le_succ_of_le hle), within_of_le (Nat.le_succ _),
      if_neg (Nat.succ_ne_self _)] at hw
    rcases List.mem_append.1 hs with hs | hs
    · rw [within_of_lt (hx.finals s hs).2]
      exact mem_after_of_mem_finals hs hw
    · obtain ⟨hge, hlt⟩ := hy.finals s hs
      rw [within_of_le hge, within_of_lt hlt]
      exact mem_after_of_mem_finals hs hw

theorem builds_or (hx : Builds k nfa x nfa₁) (hy : Builds l nfa₁ y nfa₂) :
    Builds (k + l) nfa ⟨[nfa₂.size], [nfa₂.size + 1]⟩
      (enclose (x.starts ++ y.starts) (x.finals ++ y.finals) nfa₂) := by
  have hle₁ := hx.grows.size_le
  have hle₂ := hy.grows.size_le
  have hstarts : ∀ s ∈ x.starts ++ y.starts, nfa.size ≤ s ∧ s < nfa₂.size := by
    intro s hs
    rcases List.mem_append.1 hs with hs | hs
    · have hin := hx.starts s hs
      omega
    · have hin := hy.starts s hs
      omega
  have hfinals : ∀ f ∈ x.finals ++ y.finals, nfa.size ≤ f ∧ f < nfa₂.size := by
    intro f hf
    rcases List.mem_append.1 hf with hf | hf
    · have hin := hx.finals f hf
      omega
    · have hin := hy.finals f hf
      omega
  obtain ⟨hgrows, hsize, hedge⟩ := enclose_edges (hx.grows.trans hy.grows) hstarts hfinals
  generalize enclose (x.starts ++ y.starts) (x.finals ++ y.finals) nfa₂ = nfa₃
    at hgrows hsize hedge
  refine ⟨hgrows, ?_, ?_, ?_⟩
  · intro s hs
    obtain rfl := List.mem_singleton.1 hs
    omega
  · intro f hf
    obtain rfl := List.mem_singleton.1 hf
    omega
  · intro w
    simp only [List.mem_singleton, exists_eq_left]
    have hthrough : ∀ s ∈ x.starts ++ y.starts, ∀ f ∈ x.finals ++ y.finals, nfa₂.Path s w f →
        nfa₃.Path nfa₂.size w (nfa₂.size + 1) := by
      intro s hs f hf hp
      have henter : nfa₃.Edge nfa₂.size none s :=
        (hedge _ _ _).2 (.inl (.inr ⟨by simp, rfl, hs⟩))
      have hleave : nfa₃.Path f [] (nfa₂.size + 1) :=
        Nfa.Path.single (o := none) ((hedge _ _ _).2 (.inr ⟨hf, rfl, by simp⟩))
      have hp' : nfa₃.Path s w f := hp.mono fun _ _ _ h => (hedge _ _ _).2 (.inl (.inl h))
      have hall := hp'.append hleave
      rw [List.append_nil] at hall
      exact .step henter hall
    constructor
    · intro hw
      rcases (Language.mem_add _ _ _).1 hw with hw | hw
      · obtain ⟨s, hs, f, hf, hp⟩ := (hx.accepts w).1 hw
        exact hthrough s (by simp [hs]) f (by simp [hf]) (hy.grows.path hp)
      · obtain ⟨s, hs, f, hf, hp⟩ := (hy.accepts w).1 hw
        exact hthrough s (by simp [hs]) f (by simp [hf]) hp
    · intro hp
      have hw := (guess_alternatives hx hy hedge).mem_of_path hp ?_
      · rwa [within_of_le hle₂, within_of_le (Nat.le_refl _), if_pos rfl] at hw
      · rw [within_of_le (Nat.le_succ_of_le hle₂), within_of_le (Nat.le_succ _),
          if_neg (Nat.succ_ne_self _)]
        exact Language.nil_mem_one

/-! ### Complement -/

@[simp] theorem edge_close {s t : Nat} {o : Option UInt8} :
    (close x nfa).Edge s o t ↔ nfa.Edge s o t := by
  cases o <;> exact Iff.rfl

@[simp] theorem path_close {s t : Nat} {w : List UInt8} :
    (close x nfa).Path s w t ↔ nfa.Path s w t :=
  ⟨fun hp => hp.mono fun _ _ _ => edge_close.1, fun hp => hp.mono fun _ _ _ => edge_close.2⟩

theorem close_wellFormed (h : nfa.WellFormed) : (close x nfa).WellFormed :=
  ⟨h.edges_size, h.epsilons_size, fun hedge => h.target_lt (edge_close.1 hedge)⟩

theorem close_start_lt (hx : Builds k .empty x nfa) :
    ∀ s ∈ (close x nfa).start, s < (close x nfa).size := by
  intro s hs
  rw [close, SortedSet.mem_insertAll, hx.grows.start_eq] at hs
  exact (hx.starts s (hs.resolve_right (SortedSet.not_mem_empty s))).2

/-- A fragment that stands alone recognizes its language. -/
theorem close_recognize (hx : Builds k .empty x nfa) (w : List UInt8) :
    (close x nfa).recognize w = true ↔ w ∈ k := by
  have hstart : ∀ s, s ∈ (close x nfa).start ↔ s ∈ x.starts := by
    intro s
    rw [close, SortedSet.mem_insertAll, hx.grows.start_eq]
    exact or_iff_left (SortedSet.not_mem_empty s)
  have hfinal : ∀ f, f ∈ (close x nfa).final ↔ f ∈ x.finals := by
    intro f
    rw [close, SortedSet.mem_insertAll, hx.grows.final_eq]
    exact or_iff_left (SortedSet.not_mem_empty f)
  rw [Nfa.recognize_iff (close_wellFormed hx.grows.wellFormed), hx.accepts]
  simp only [hstart, hfinal, path_close]

theorem builds_embed (h : nfa.WellFormed) {d : Dfa} (hd : d.Valid)
    (hl : ∀ w, w ∈ l ↔ d.recognize w = true) :
    Builds l nfa ⟨[nfa.size], d.final.toList.map (· + nfa.size)⟩ (nfa.embed d.toNfa) := by
  have hother := Dfa.toNfa_wellFormed hd
  have hsize : (nfa.embed d.toNfa).size = nfa.size + d.size := Nfa.size_embed h.tabled d.toNfa
  have hpos := hd.size_pos
  refine ⟨⟨h, h.embed hother, by omega, ?_, ?_, ?_, ?_⟩, ?_, ?_, ?_⟩
  · intro s o t hs
    rw [Nfa.edge_embed h.tabled hother]
    apply or_iff_left
    rintro ⟨s', t', _, rfl, _⟩
    omega
  · intro s o t hs hedge
    rcases (Nfa.edge_embed h.tabled hother).1 hedge with hold | ⟨s', t', _, _, rfl⟩
    · have hlt := h.source_lt hold
      omega
    · exact Nat.le_add_left _ _
  · exact (nfa.widen_start d.toNfa).1
  · exact (nfa.widen_start d.toNfa).2
  · intro s hs
    obtain rfl := List.mem_singleton.1 hs
    omega
  · intro f hf
    obtain ⟨f', hf', rfl⟩ := List.mem_map.1 hf
    have hlt := hd.final_lt hf'
    omega
  · intro w
    have hpath : ∀ u, (nfa.embed d.toNfa).Path nfa.size w u ↔
        ∃ u', d.run 0 w = some u' ∧ u' + nfa.size = u := by
      intro u
      have hp := Nfa.path_embed h.tabled hother (s := 0) (w := w) (u := u)
      rw [Nat.zero_add] at hp
      simpa only [Dfa.path_toNfa] using hp
    rw [hl w, Dfa.recognize_iff]
    simp only [List.mem_singleton, exists_eq_left, List.mem_map, hpath]
    constructor
    · rintro ⟨f, hrun, hf⟩
      exact ⟨f + nfa.size, ⟨f, hf, rfl⟩, f, hrun, rfl⟩
    · rintro ⟨_, ⟨f, hf, rfl⟩, u, hrun, heq⟩
      obtain rfl : u = f := by omega
      exact ⟨u, hrun, hf⟩

/-- A fragment accepts the language of its expression. -/
theorem builds_fragment (r : Regex) {nfa : Nfa} (h : nfa.WellFormed) :
    Builds r.language nfa (r.fragment nfa).1 (r.fragment nfa).2 := by
  induction r generalizing nfa with
  | literal bs => exact builds_literal h bs
  | range lo hi => exact builds_range h lo hi
  | concat a b iha ihb =>
      have hx := iha h
      exact builds_concat hx (ihb hx.grows.wellFormed)
  | star a ih => exact builds_star (ih h)
  | or a b iha ihb =>
      have hx := iha h
      exact builds_or hx (ihb hx.grows.wellFormed)
  | tag a name ih => exact builds_tag (ih h) name
  | not a ih =>
      have hx := ih Nfa.wellFormed_empty
      have hwf := close_wellFormed (x := (a.fragment .empty).1) hx.grows.wellFormed
      have hd := determinize_valid none hwf (close_start_lt hx)
      refine builds_embed h (Dfa.complement_valid hd) fun w => ?_
      rw [mem_language_not, Dfa.complement_recognize hd,
        determinize_recognize none hwf (close_start_lt hx), ← close_recognize hx w]
      simp

/-- The automaton of an expression recognizes the words of its language. -/
theorem compile_recognize (r : Regex) (w : List UInt8) :
    r.compile.recognize w = true ↔ w ∈ r.language :=
  close_recognize (builds_fragment r Nfa.wellFormed_empty) w

theorem compile_wellFormed (r : Regex) : r.compile.WellFormed :=
  close_wellFormed (builds_fragment r Nfa.wellFormed_empty).grows.wellFormed

theorem compile_start_lt (r : Regex) : ∀ s ∈ r.compile.start, s < r.compile.size :=
  close_start_lt (builds_fragment r Nfa.wellFormed_empty)

end Seedling.Regex
