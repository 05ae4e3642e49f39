import Seedling.Automaton.Dfa
import Seedling.Proofs.SortedMap

/-!
Deterministic automata whose tables fit together, and their runs one byte at a time.
-/

namespace Seedling.Automaton.Dfa

/-- There is a start state, every state has a row, and only states are mentioned. -/
structure Valid (d : Dfa) : Prop where
  rows_size : d.rows.size = d.size
  size_pos : 0 < d.size
  next_lt : ∀ {s b t}, d.next? s b = some t → t < d.size
  final_lt : ∀ {s}, s ∈ d.final → s < d.size
  unmergeable_lt : ∀ {s}, s ∈ d.unmergeable → s < d.size

variable {d : Dfa}

@[simp] theorem run_nil (s : Nat) : d.run s [] = some s := rfl

@[simp] theorem run_cons (s : Nat) (b : UInt8) (w : List UInt8) :
    d.run s (b :: w) = (d.next? s b).bind fun t => d.run t w := by
  rw [run, List.foldlM_cons]
  rfl

theorem run_append (s : Nat) (v w : List UInt8) :
    d.run s (v ++ w) = (d.run s v).bind fun t => d.run t w := by
  rw [run, List.foldlM_append]
  rfl

theorem Valid.run_lt (hd : d.Valid) {s t : Nat} {w : List UInt8} (hs : s < d.size)
    (h : d.run s w = some t) : t < d.size := by
  induction w generalizing s with
  | nil =>
      obtain rfl : s = t := by simpa using h
      exact hs
  | cons b w ih =>
      rw [run_cons] at h
      obtain ⟨u, hu, hrest⟩ := Option.bind_eq_some_iff.1 h
      exact ih (hd.next_lt hu) hrest

@[simp] theorem isFinal_iff {s : Nat} : d.isFinal s = true ↔ s ∈ d.final := by
  simp [isFinal, SortedSet.contains]

theorem recognize_iff {w : List UInt8} :
    d.recognize w = true ↔ ∃ s, d.run 0 w = some s ∧ s ∈ d.final := by
  rw [recognize]
  cases d.run 0 w with
  | none => simp
  | some s => simp

theorem lt_of_next? {s t : Nat} {b : UInt8} (h : d.next? s b = some t) : s < d.rows.size := by
  refine Nat.lt_of_not_le fun hs => ?_
  have hrow : d.row s = .empty := by
    rw [row, Array.getElem?_eq_none hs]
    rfl
  rw [next?, hrow, SortedMap.get?_empty] at h
  contradiction

theorem valid_of_ofParts {names : Array String} {rows : Array (SortedMap UInt8 Nat)}
    {final unmergeable : StateSet}
    (h : ofParts names rows final unmergeable = .ok d) : d.Valid := by
  rw [ofParts] at h
  split at h
  · contradiction
  rename_i hrows
  split at h
  · contradiction
  rename_i hpos
  split at h
  · contradiction
  rename_i hnone
  cases h
  have hlt : ∀ s ∈ mentioned rows final unmergeable, s < names.size := fun s hs => by
    simpa using List.find?_eq_none.1 hnone s hs
  simp only [mentioned, List.mem_append, List.mem_flatMap, SortedSet.mem_toList] at hlt
  refine ⟨(Decidable.not_not.1 hrows).symm, Nat.pos_of_ne_zero hpos, fun {s b t} ht => ?_,
    fun hs => hlt _ (.inl (.inr hs)), fun hs => hlt _ (.inr hs)⟩
  have hs : s < rows.size := lt_of_next? ht
  rw [next?, row, Array.getElem?_eq_getElem hs, Option.getD_some, SortedMap.get?_eq_some_iff] at ht
  exact hlt t (.inl (.inl ⟨rows[s], by simp, List.mem_map_of_mem (f := Prod.snd) ht⟩))

end Seedling.Automaton.Dfa
