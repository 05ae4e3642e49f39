import Mathlib.Data.Finset.Card
import Seedling.Proofs.Automaton.Dfa
import Seedling.Proofs.Automaton.Path

/-!
Completion and complement. A completed automaton has a transition under every byte, and its run
ends where the run of the automaton ends, or in the added state where that run is missing.
Exchanging final and other states therefore exchanges the recognized words and the others. Seen
as a nondeterministic automaton, a deterministic one has exactly its runs as paths.
-/

namespace Seedling.Automaton.Dfa

theorem mem_allBytes (b : UInt8) : b ∈ allBytes := by
  refine List.mem_map.2 ⟨b.toNat, List.mem_range.2 b.toNat_lt, ?_⟩
  exact UInt8.ofNat_toNat

theorem get?_foldl_fill (s : Nat) (bytes : List UInt8) (row : SortedMap UInt8 Nat) (c : UInt8) :
    (bytes.foldl (fun row b => row.upsert b fun target => target.getD s) row).get? c =
      if c ∈ bytes then some ((row.get? c).getD s) else row.get? c := by
  induction bytes generalizing row with
  | nil => simp
  | cons b bytes ih =>
      rw [List.foldl_cons, ih, SortedMap.get?_upsert]
      by_cases h : b = c
      · subst h
        simp
      · simp [h, Ne.symm h]

@[simp] theorem get?_fillRow (s : Nat) (row : SortedMap UInt8 Nat) (b : UInt8) :
    (fillRow s row).get? b = some ((row.get? b).getD s) := by
  rw [fillRow, get?_foldl_fill, if_pos (mem_allBytes b)]

def byteNumbers (row : SortedMap UInt8 Nat) : Finset Nat :=
  (row.toList.map fun p => p.1.toNat).toFinset

theorem mem_byteNumbers {row : SortedMap UInt8 Nat} {b : UInt8} :
    b.toNat ∈ byteNumbers row ↔ ∃ t, row.get? b = some t := by
  simp only [byteNumbers, List.mem_toFinset, List.mem_map, SortedMap.get?_eq_some_iff]
  constructor
  · rintro ⟨⟨c, t⟩, hp, hc⟩
    obtain rfl : c = b := UInt8.toNat_inj.1 hc
    exact ⟨t, hp⟩
  · rintro ⟨t, hp⟩
    exact ⟨(b, t), hp, rfl⟩

theorem card_byteNumbers (row : SortedMap UInt8 Nat) : (byteNumbers row).card = row.size := by
  have hnodup : (row.toList.map fun p => p.1.toNat).Nodup :=
    List.pairwise_map.2 (row.sorted.imp fun h => Nat.ne_of_lt (UInt8.lt_iff_toNat_lt.1 h))
  rw [byteNumbers, List.toFinset_card_of_nodup hnodup, List.length_map, SortedMap.size]

theorem byteNumbers_subset (row : SortedMap UInt8 Nat) : byteNumbers row ⊆ Finset.range 256 := by
  intro n hn
  obtain ⟨p, _, rfl⟩ := List.mem_map.1 (List.mem_toFinset.1 hn)
  exact Finset.mem_range.2 p.1.toNat_lt

/-- A row has 256 places just when it has one for every byte. -/
theorem size_eq_256_iff {row : SortedMap UInt8 Nat} :
    row.size = 256 ↔ ∀ b, ∃ t, row.get? b = some t := by
  simp only [← card_byteNumbers, ← mem_byteNumbers]
  constructor
  · intro h b
    rw [Finset.eq_of_subset_of_card_le (byteNumbers_subset row) (by rw [Finset.card_range, h])]
    exact Finset.mem_range.2 b.toNat_lt
  · intro h
    have hall : Finset.range 256 ⊆ byteNumbers row := by
      intro n hn
      have hb := h (UInt8.ofNat n)
      rwa [UInt8.toNat_ofNat_of_lt' (Finset.mem_range.1 hn)] at hb
    rw [(byteNumbers_subset row).antisymm hall, Finset.card_range]

variable {d : Dfa}

theorem next?_of_isComplete (hd : d.Valid) (h : d.isComplete = true) {s : Nat} (hs : s < d.size)
    (b : UInt8) : ∃ t, d.next? s b = some t := by
  have hlt : s < d.rows.size := by
    rw [hd.rows_size]
    exact hs
  have hrow : d.rows[s]? = some (d.row s) := by
    rw [row, Array.getElem?_eq_getElem hlt]
    rfl
  have hsize : (d.row s).size = 256 := by
    have hall := Array.all_eq_true'.1 h (d.row s) (Array.mem_of_getElem? hrow)
    simpa using hall
  exact size_eq_256_iff.1 hsize b

theorem isComplete_ne_true (hd : d.Valid) {s : Nat} (hs : s < d.size) {b : UInt8}
    (h : d.next? s b = none) : d.isComplete ≠ true := by
  intro hcomplete
  obtain ⟨t, ht⟩ := next?_of_isComplete hd hcomplete hs b
  rw [h] at ht
  contradiction

theorem complete_size (h : d.isComplete ≠ true) : d.complete.size = d.size + 1 := by
  rw [complete, if_neg h]
  simp [size]

theorem complete_next? (hd : d.Valid) {s : Nat} (hs : s < d.size) (b : UInt8) :
    d.complete.next? s b = some ((d.next? s b).getD d.size) := by
  rw [complete]
  split
  · rename_i h
    obtain ⟨t, ht⟩ := next?_of_isComplete hd h hs b
    rw [ht]
    rfl
  · have hlt : s < d.rows.size := by
      rw [hd.rows_size]
      exact hs
    simp only [next?, row, Array.getElem?_map, Array.getElem?_push_lt hlt, Option.map_some,
      Option.getD_some, get?_fillRow, Array.getElem?_eq_getElem hlt]

theorem complete_next?_added (hd : d.Valid) (h : d.isComplete ≠ true) (b : UInt8) :
    d.complete.next? d.size b = some d.size := by
  rw [complete, if_neg h]
  simp only [next?, row, Array.getElem?_map]
  rw [← hd.rows_size, Array.getElem?_push_size]
  simp [get?_fillRow]

theorem complete_run_added (hd : d.Valid) (h : d.isComplete ≠ true) (w : List UInt8) :
    d.complete.run d.size w = some d.size := by
  induction w with
  | nil => rfl
  | cons b w ih => rw [run_cons, complete_next?_added hd h, Option.bind_some, ih]

/-- The run of a completed automaton ends where the run ends, or else in the added state. -/
theorem complete_run (hd : d.Valid) {s : Nat} (hs : s < d.size) (w : List UInt8) :
    d.complete.run s w = some ((d.run s w).getD d.size) := by
  induction w generalizing s with
  | nil => rfl
  | cons b w ih =>
      rw [run_cons, run_cons, complete_next? hd hs, Option.bind_some]
      cases hnext : d.next? s b with
      | some t => exact ih (hd.next_lt hnext)
      | none => exact complete_run_added hd (isComplete_ne_true hd hs hnext) w

@[simp] theorem complete_final (d : Dfa) : d.complete.final = d.final := by
  rw [complete]
  split <;> rfl

@[simp] theorem complete_unmergeable (d : Dfa) : d.complete.unmergeable = d.unmergeable := by
  rw [complete]
  split <;> rfl

theorem size_le_complete (d : Dfa) : d.size ≤ d.complete.size := by
  rw [complete]
  split
  · exact Nat.le_refl _
  · simp [size]

theorem lt_or_added {s : Nat} (hs : s < d.complete.size) :
    s < d.size ∨ d.isComplete ≠ true ∧ s = d.size := by
  by_cases h : d.isComplete = true
  · rw [complete, if_pos h] at hs
    exact .inl hs
  · rw [complete_size h] at hs
    rcases Nat.lt_succ_iff_lt_or_eq.1 hs with hlt | heq
    · exact .inl hlt
    · exact .inr ⟨h, heq⟩

theorem complete_next?_isSome (hd : d.Valid) {s : Nat} (hs : s < d.complete.size) (b : UInt8) :
    ∃ t < d.complete.size, d.complete.next? s b = some t := by
  rcases lt_or_added hs with hold | ⟨hpartial, rfl⟩
  · refine ⟨_, ?_, complete_next? hd hold b⟩
    cases hnext : d.next? s b with
    | some t => exact Nat.lt_of_lt_of_le (hd.next_lt hnext) (size_le_complete d)
    | none =>
        rw [complete_size (isComplete_ne_true hd hold hnext)]
        exact Nat.lt_succ_self _
  · exact ⟨d.size, hs, complete_next?_added hd hpartial b⟩

theorem complete_row_size (hd : d.Valid) {s : Nat} (hs : s < d.complete.size) :
    (d.complete.row s).size = 256 := by
  refine size_eq_256_iff.2 fun b => ?_
  obtain ⟨t, -, ht⟩ := complete_next?_isSome hd hs b
  exact ⟨t, ht⟩

theorem complete_valid (hd : d.Valid) : d.complete.Valid := by
  have hle := size_le_complete d
  have hrows : d.complete.rows.size = d.complete.size := by
    rw [complete]
    split
    · exact hd.rows_size
    · simpa [size] using hd.rows_size
  refine ⟨hrows, Nat.lt_of_lt_of_le hd.size_pos hle, ?_, ?_, ?_⟩
  · intro s b t ht
    obtain ⟨u, hu, hnext⟩ := complete_next?_isSome hd (hrows ▸ lt_of_next? ht) b
    rw [hnext] at ht
    obtain rfl := Option.some.inj ht
    exact hu
  · intro s hs
    rw [complete_final] at hs
    exact Nat.lt_of_lt_of_le (hd.final_lt hs) hle
  · intro s hs
    rw [complete_unmergeable] at hs
    exact Nat.lt_of_lt_of_le (hd.unmergeable_lt hs) hle

theorem complete_recognize (hd : d.Valid) (w : List UInt8) :
    d.complete.recognize w = d.recognize w := by
  rw [Bool.eq_iff_iff, recognize_iff, recognize_iff, complete_run hd hd.size_pos, complete_final]
  cases d.run 0 w with
  | some t => simp
  | none =>
      have hadded : d.size ∉ d.final := fun h => Nat.lt_irrefl _ (hd.final_lt h)
      simpa using hadded

@[simp] theorem complement_run (d : Dfa) (s : Nat) (w : List UInt8) :
    d.complement.run s w = d.complete.run s w := rfl

theorem mem_complement_final {s : Nat} :
    s ∈ d.complement.final ↔ s < d.complete.size ∧ s ∉ d.final := by
  simp [complement, isFinal, complete_final, SortedSet.contains]

theorem complement_valid (hd : d.Valid) : d.complement.Valid := by
  have hc := complete_valid hd
  refine ⟨hc.rows_size, hc.size_pos, hc.next_lt, ?_, ?_⟩
  · exact fun h => (mem_complement_final.1 h).1
  · exact fun h => absurd h (SortedSet.not_mem_empty _)

/-- The complement recognizes exactly the other words. -/
theorem complement_recognize (hd : d.Valid) (w : List UInt8) :
    d.complement.recognize w = !d.recognize w := by
  have hlt := (complete_valid hd).run_lt (complete_valid hd).size_pos
    (complete_run hd hd.size_pos w)
  rw [← complete_recognize hd, Bool.eq_iff_iff, Bool.not_eq_true', ← Bool.not_eq_true,
    recognize_iff, recognize_iff, complement_run, complete_run hd hd.size_pos]
  simp only [Option.some.injEq, exists_eq_left', mem_complement_final, complete_final]
  exact and_iff_right hlt

theorem edge_toNfa {s t : Nat} {o : Option UInt8} :
    d.toNfa.Edge s o t ↔ ∃ b, o = some b ∧ d.next? s b = some t := by
  cases o with
  | none =>
      simp only [Nfa.Edge, Nfa.epsilon, toNfa, reduceCtorEq, false_and, exists_false, iff_false,
        Array.getElem?_map]
      cases d.names[s]? <;> simp
  | some b =>
      have htargets : d.toNfa.targets s b =
          ((d.next? s b).map SortedSet.singleton).getD .empty := by
        have hrow : d.toNfa.row s = (d.row s).mapValues SortedSet.singleton := by
          simp only [Nfa.row, toNfa, row, Array.getElem?_map]
          cases d.rows[s]? <;> rfl
        rw [Nfa.targets, hrow, SortedMap.get?_mapValues]
        rfl
      simp only [Nfa.Edge, htargets, Option.some.injEq, exists_eq_left']
      cases d.next? s b with
      | none => simp
      | some u => simp [eq_comm]

theorem toNfa_wellFormed (hd : d.Valid) : d.toNfa.WellFormed := by
  refine ⟨?_, by simp [toNfa, Nfa.size], ?_⟩
  · simpa [toNfa, Nfa.size, size] using hd.rows_size
  · intro s o t h
    obtain ⟨b, _, hnext⟩ := edge_toNfa.1 h
    exact hd.next_lt hnext

/-- The paths of a deterministic automaton are its runs. -/
theorem path_toNfa {s t : Nat} {w : List UInt8} : d.toNfa.Path s w t ↔ d.run s w = some t := by
  constructor
  · intro hp
    induction hp with
    | nil _ => rfl
    | step hedge _ ih =>
        obtain ⟨b, rfl, hnext⟩ := edge_toNfa.1 hedge
        rw [Option.toList_some, List.singleton_append, run_cons, hnext, Option.bind_some, ih]
  · intro hrun
    induction w generalizing s with
    | nil =>
        obtain rfl : s = t := by simpa using hrun
        exact .nil s
    | cons b w ih =>
        rw [run_cons] at hrun
        obtain ⟨u, hnext, hrest⟩ := Option.bind_eq_some_iff.1 hrun
        exact Nfa.Path.step (edge_toNfa.2 ⟨b, rfl, hnext⟩) (ih hrest)

theorem toNfa_recognize (hd : d.Valid) (w : List UInt8) : d.toNfa.recognize w = d.recognize w := by
  have hstart : ∀ s, s ∈ d.toNfa.start ↔ s = 0 := fun s => SortedSet.mem_singleton
  rw [Bool.eq_iff_iff, Nfa.recognize_iff (toNfa_wellFormed hd), recognize_iff]
  simp only [path_toNfa, hstart, exists_eq_left]
  exact exists_congr fun s => and_comm

end Seedling.Automaton.Dfa
