import Seedling.Proofs.Automaton.Build
import Seedling.Proofs.Automaton.Complement

/-!
Boolean operations and embeddings. Completing, complementing and copying an automaton do to its
words what their names say. In an embedding exactly the embedded automaton is run from the added
states, moved up. From the states that were there before, exactly what was run from them before
is run on every word that leads to states only. An edge to a number without a state is all that
can make a difference, as an embedding gives such numbers to the states that it adds.
-/

namespace Seedling.Automaton

namespace Nfa

variable {m n : Nfa} {states : StateSet}

/-! ### Added states -/

/-- No edge leads from the added states to the others. -/
theorem embed_encloses_added (hm : m.Tabled) (hn : n.WellFormed) :
    (m.embed n).Encloses (m.size ≤ ·) := by
  intro s o t hs hedge
  rw [(hm.embed n).epsilons_size, size_embed hm]
  rcases (edge_embed hm hn).1 hedge with hold | ⟨s', t', hnew, rfl, rfl⟩
  · have hlt := hm.source_lt hold
    omega
  · have hlt := hn.target_lt hnew
    omega

/-- From the added states an embedding runs the automaton that was embedded. -/
theorem run_embed_shift (hm : m.Tabled) (hn : n.WellFormed) (states : StateSet) (w : List UInt8) :
    (m.embed n).run (shift m.size states) w = shift m.size (n.run states w) := by
  have hadded : ∀ s ∈ shift m.size states, m.size ≤ s := by
    intro s hs
    obtain ⟨s', -, rfl⟩ := mem_shift.1 hs
    omega
  apply SortedSet.ext_mem
  intro u
  rw [mem_run_of_encloses (embed_encloses_added hm hn) hadded]
  simp only [mem_shift, mem_run hn]
  constructor
  · rintro ⟨_, ⟨s, hs, rfl⟩, hpath⟩
    obtain ⟨u', hpath', hu⟩ := (path_embed hm hn).1 hpath
    exact ⟨u', ⟨s, hs, hpath'⟩, hu⟩
  · rintro ⟨u', ⟨s, hs, hpath⟩, rfl⟩
    exact ⟨s + m.size, ⟨s, hs, rfl⟩, (path_embed hm hn).2 ⟨u', hpath, rfl⟩⟩

/-! ### States that were there before -/

/-- No beginning of a word leads from some states to a number that is not a state's. -/
def StaysInside (nfa : Nfa) (states : StateSet) (w : List UInt8) : Prop :=
  ∀ v, v <+: w → ∀ s ∈ states, ∀ u, nfa.Path s v u → u < nfa.size

/-- A word stays inside if it starts from states that its bytes do not lead out of. -/
theorem staysInside_of_edges {within : Nat → Prop} {w : List UInt8}
    (hlt : ∀ s, within s → s < n.size) (hstates : ∀ s ∈ states, within s)
    (hedge : ∀ s o t, within s → (∀ b ∈ o, b ∈ w) → n.Edge s o t → within t) :
    n.StaysInside states w := by
  intro v hv s hs u hpath
  have hbytes : ∀ b ∈ v, b ∈ w := fun b hb => hv.subset hb
  have hwithin := hstates s hs
  clear hv hs
  refine hlt u ?_
  induction hpath with
  | nil _ => exact hwithin
  | step h _ ih =>
      have ht := hedge _ _ _ hwithin (fun b hb => hbytes b (by simp [Option.mem_def.1 hb])) h
      exact ih (fun b hb => hbytes b (List.mem_append_right _ hb)) ht

/-- Where all edges lead to states, every word stays inside. -/
theorem WellFormed.staysInside (hn : n.WellFormed) (hstates : ∀ s ∈ states, s < n.size)
    (w : List UInt8) : n.StaysInside states w :=
  staysInside_of_edges (fun _ => id) hstates fun _ _ _ _ _ hedge => hn.target_lt hedge

theorem edge_embed_own (hm : m.Tabled) (hn : n.WellFormed) {s t : Nat} {o : Option UInt8}
    (hs : s < m.size) : (m.embed n).Edge s o t ↔ m.Edge s o t := by
  rw [edge_embed hm hn]
  constructor
  · rintro (hold | ⟨s', t', -, rfl, -⟩)
    · exact hold
    · omega
  · exact .inl

theorem step_embed_own (hm : m.Tabled) (hn : n.WellFormed) (hstates : ∀ s ∈ states, s < m.size)
    (b : UInt8) : (m.embed n).step states b = m.step states b := by
  apply SortedSet.ext_mem
  intro t
  rw [mem_step, mem_step]
  exact exists_congr fun s => and_congr_right fun hs => edge_embed_own hm hn (hstates s hs)

/-- A number is reached from some states without reading. -/
def ReachedSilently (nfa : Nfa) (states : StateSet) (u : Nat) : Prop :=
  ∃ s ∈ states, nfa.Path s [] u

theorem ReachedSilently.edge {s t : Nat} (hs : n.ReachedSilently states s)
    (hedge : n.Edge s none t) : n.ReachedSilently states t := by
  obtain ⟨r, hr, hpath⟩ := hs
  exact ⟨r, hr, hpath.append (.single hedge)⟩

theorem mem_closure_of_inside (hm : m.Tabled)
    (hinside : ∀ u, m.ReachedSilently states u → u < m.size) {u : Nat} :
    u ∈ m.closure states ↔ m.ReachedSilently states u := by
  simp only [ReachedSilently, path_nil_iff]
  refine Reachability.mem_closure_iff_of_encloses (fun s hs t hedge => ?_)
    fun s hs => (⟨s, hs, .nil s⟩ : m.ReachedSilently states s)
  have ht := ReachedSilently.edge hs hedge
  exact ⟨ht, hm.epsilons_size ▸ hinside t ht⟩

theorem closure_embed_own (hm : m.Tabled) (hn : n.WellFormed)
    (hinside : ∀ u, m.ReachedSilently states u → u < m.size) :
    (m.embed n).closure states = m.closure states := by
  have hedge : ∀ {s t}, m.ReachedSilently states s →
      ((m.embed n).Edge s none t ↔ m.Edge s none t) := fun hs => edge_embed_own hm hn (hinside _ hs)
  apply SortedSet.ext_mem
  intro u
  rw [mem_closure_of_inside hm hinside]
  have hencloses : Reachability.Encloses (m.embed n).epsilon (m.embed n).epsilons.size
      (m.ReachedSilently states) := by
    intro s hs t ht
    have ht := hs.edge ((hedge hs).1 ht)
    have hlt := hinside t ht
    rw [(hm.embed n).epsilons_size, size_embed hm]
    exact ⟨ht, by omega⟩
  refine (Reachability.mem_closure_iff_of_encloses hencloses fun s hs => ⟨s, hs, .nil s⟩).trans ?_
  simp only [ReachedSilently, path_nil_iff]
  constructor
  · rintro ⟨s, hs, hreach⟩
    obtain ⟨r, hr, hpath⟩ := hencloses.reaches ⟨s, hs, .nil s⟩ hreach
    exact ⟨r, hr, path_nil_iff.1 hpath⟩
  · rintro ⟨s, hs, hreach⟩
    exact ⟨s, hs, path_nil_iff.1 ((path_nil_iff.2 hreach).mono fun _ _ _ h =>
      (edge_embed hm hn).2 (.inl h))⟩

namespace StaysInside

variable {w : List UInt8} {b : UInt8}

theorem silently (h : m.StaysInside states w) (u : Nat) (hu : m.ReachedSilently states u) :
    u < m.size := by
  obtain ⟨s, hs, hpath⟩ := hu
  exact h [] List.nil_prefix s hs u hpath

theorem tail (hm : m.Tabled) (h : m.StaysInside states (b :: w)) :
    m.StaysInside (m.step (m.closure states) b) w := by
  intro v hv t ht u hpath
  obtain ⟨s', hs', hedge⟩ := mem_step.1 ht
  obtain ⟨s, hs, hsilent⟩ := (mem_closure_of_inside hm h.silently).1 hs'
  exact h (b :: v) (List.cons_prefix_cons.2 ⟨rfl, hv⟩) s hs u (hsilent.append (.step hedge hpath))

/-- On a word that stays inside, an embedding runs from states that were there before what was
run from them before. -/
theorem run_embed (hm : m.Tabled) (hn : n.WellFormed) (h : m.StaysInside states w) :
    (m.embed n).run states w = m.run states w := by
  induction w generalizing states with
  | nil => exact closure_embed_own hm hn h.silently
  | cons b w ih =>
      have hown : ∀ s ∈ m.closure states, s < m.size := fun s hs =>
        h.silently s ((mem_closure_of_inside hm h.silently).1 hs)
      change (m.embed n).run ((m.embed n).step ((m.embed n).closure states) b) w =
        m.run (m.step (m.closure states) b) w
      rw [closure_embed_own hm hn h.silently, step_embed_own hm hn hown]
      exact ih (h.tail hm)

/-- The start and final states of an embedding are those that were there before, so that it
recognizes the words that stay inside as before. -/
theorem recognize_embed (hm : m.Tabled) (hn : n.WellFormed) (h : m.StaysInside m.start w) :
    (m.embed n).recognize w = m.recognize w := by
  obtain ⟨hstart, hfinal⟩ := m.widen_start n
  change ((m.embed n).run (m.widen n).start w).toList.any
    (fun s => (m.widen n).final.contains s) = _
  rw [hstart, hfinal, h.run_embed hm hn]
  rfl

end StaysInside

end Nfa

/-- A completed automaton has all transitions and the same words; a complement has exactly the
other words, and its complement the first ones again; as a nondeterministic automaton, an
automaton has its own words. In an embedding, the embedded automaton is run from its states,
moved up. From states that were there before, what was run from them before is run on every word
no beginning of which leads from them to a number that is not a state's; where all edges lead to
states, these are all words. -/
theorem boolean_operations_exact :
    (∀ d : Dfa, d.Valid →
      d.complete.Valid ∧
      (∀ s < d.complete.size, (d.complete.row s).size = 256 ∧
        ∀ b, ∃ t < d.complete.size, d.complete.next? s b = some t) ∧
      d.complement.Valid ∧
      ∀ w, d.complete.recognize w = d.recognize w ∧
        d.complement.recognize w = !d.recognize w ∧
        d.complement.complement.recognize w = d.recognize w ∧
        d.toNfa.recognize w = d.recognize w) ∧
    ∀ m n : Nfa, m.Tabled → n.WellFormed →
      (m.embed n).size = m.size + n.size ∧
      (∀ states w,
        (m.embed n).run (Nfa.shift m.size states) w = Nfa.shift m.size (n.run states w)) ∧
      (∀ states w, m.StaysInside states w → (m.embed n).run states w = m.run states w) ∧
      (∀ w, m.StaysInside m.start w → (m.embed n).recognize w = m.recognize w) ∧
      (m.WellFormed → ∀ states, (∀ s ∈ states, s < m.size) → ∀ w, m.StaysInside states w) := by
  refine ⟨fun d hd => ⟨Dfa.complete_valid hd, fun s hs => ?_, Dfa.complement_valid hd, fun w => ?_⟩,
    fun m n hm hn => ?_⟩
  · exact ⟨Dfa.complete_row_size hd hs, Dfa.complete_next?_isSome hd hs⟩
  · have htwice : d.complement.complement.recognize w = d.recognize w := by
      rw [Dfa.complement_recognize (Dfa.complement_valid hd), Dfa.complement_recognize hd,
        Bool.not_not]
    exact ⟨Dfa.complete_recognize hd w, Dfa.complement_recognize hd w, htwice,
      Dfa.toNfa_recognize hd w⟩
  · exact ⟨Nfa.size_embed hm n, Nfa.run_embed_shift hm hn, fun states w h => h.run_embed hm hn,
      fun w h => h.recognize_embed hm hn, fun hwf states => hwf.staysInside⟩

/-- `a` and then any number of `b`; no state has a transition under `c`. -/
def openRows : Dfa where
  names := #["start", "rest"]
  rows := #[.ofList [(97, 1)], .ofList [(98, 1)]]
  final := .singleton 1
  unmergeable := .empty

theorem openRows_valid : openRows.Valid := by
  have hparts : Dfa.ofParts openRows.names openRows.rows openRows.final openRows.unmergeable =
      .ok openRows := by
    with_unfolding_all rfl
  exact Dfa.valid_of_ofParts hparts

/-- One state; `a` leads back to it and `b` to a number without a state. -/
def strayEdge : Nfa where
  names := #["here"]
  edges := #[.ofList [(97, .singleton 0), (98, .singleton 1)]]
  epsilons := #[.empty]
  start := .singleton 0
  final := .singleton 2
  unmergeable := .empty

/-- No state, but a row. -/
def looseRow : Nfa where
  names := #[]
  edges := #[.ofList [(97, .singleton 0)]]
  epsilons := #[.empty]
  start := .empty
  final := .empty
  unmergeable := .empty

theorem staysInside_strayEdge : strayEdge.StaysInside strayEdge.start [97, 97] := by
  refine @Nfa.staysInside_of_edges _ _ (· = 0) _ ?_ ?_ ?_
  · rintro s rfl
    decide
  · intro s hs
    exact SortedSet.mem_singleton.1 hs
  · rintro s (_ | b) t rfl hbytes hedge
    · exact absurd hedge (SortedSet.not_mem_empty t)
    · obtain rfl : b = 97 := by simpa using hbytes b rfl
      exact SortedSet.mem_singleton.1 hedge

/-- The complement takes in the words that get stuck, the copy runs apart from what was there,
and what was there runs past the stray edge. -/
theorem boolean_operations_openRows :
    openRows.Valid ∧ strayEdge.Tabled ∧ openRows.toNfa.WellFormed ∧
      strayEdge.StaysInside strayEdge.start [97, 97] ∧
      openRows.complement.recognize [97, 99] = true ∧
      (strayEdge.embed openRows.toNfa).run (Nfa.shift 1 (.singleton 0)) [97, 98] =
        Nfa.shift 1 (.singleton 1) ∧
      (strayEdge.embed openRows.toNfa).run strayEdge.start [97, 97] = .singleton 0 := by
  have htabled : strayEdge.Tabled := ⟨rfl, rfl⟩
  have hcopy := Dfa.toNfa_wellFormed openRows_valid
  obtain ⟨hdfa, hembed⟩ := boolean_operations_exact
  obtain ⟨-, -, -, hwords⟩ := hdfa openRows openRows_valid
  obtain ⟨-, hadded, hown, -⟩ := hembed strayEdge openRows.toNfa htabled hcopy
  refine ⟨openRows_valid, htabled, hcopy, staysInside_strayEdge, ?_, ?_, ?_⟩
  · rw [(hwords [97, 99]).2.1]
    decide
  · refine (hadded (.singleton 0) [97, 98]).trans (congrArg (Nfa.shift 1) ?_)
    decide +kernel
  · rw [hown _ _ staysInside_strayEdge]
    decide

/-- Where the stray edge leads to a number that the embedding gives to a state, what was there
runs on in the copy; and a row without a state is taken for one of the copy's. -/
theorem embed_meets_strays :
    openRows.toNfa.WellFormed ∧
      (strayEdge.Tabled ∧ (∀ s ∈ strayEdge.start, s < strayEdge.size) ∧
        strayEdge.run strayEdge.start [98, 97] = .empty ∧
        (strayEdge.embed openRows.toNfa).run strayEdge.start [98, 97] = .singleton 2 ∧
        strayEdge.recognize [98, 97] = false ∧
        (strayEdge.embed openRows.toNfa).recognize [98, 97] = true) ∧
      (looseRow.embed openRows.toNfa).run (Nfa.shift looseRow.size (.singleton 0)) [97] ≠
        Nfa.shift looseRow.size (openRows.toNfa.run (.singleton 0) [97]) := by
  refine ⟨Dfa.toNfa_wellFormed openRows_valid, ⟨⟨rfl, rfl⟩, fun s hs => ?_, ?_⟩, ?_⟩
  · rw [SortedSet.mem_singleton.1 hs]
    decide
  · decide +kernel
  · decide +kernel

end Seedling.Automaton
