import Mathlib.Order.Bounds.Defs
import Seedling.Automaton.Recognizer
import Seedling.Proofs.Automaton.Dfa

/-!
The flat table of a recognizer is the transition function of its automaton, and a scan of the table
ends with the longest accepted beginning of what it reads. It reads up to the first byte that leads
nowhere.
-/

namespace Seedling.Automaton

namespace Recognizer

/-! ### The table -/

theorem foldl_set_size (l : List (UInt8 × Nat)) (table : Array (Option Nat)) :
    (l.foldl (fun table p => table.setIfInBounds p.1.toNat (some p.2)) table).size =
      table.size := by
  induction l generalizing table with
  | nil => rfl
  | cons p l ih => rw [List.foldl_cons, ih, Array.size_setIfInBounds]

@[simp] theorem rowTable_size (row : SortedMap UInt8 Nat) : (rowTable row).size = 256 := by
  rw [rowTable, foldl_set_size, Array.size_replicate]

theorem getElem?_foldl_set {l : List (UInt8 × Nat)} (hl : l.Pairwise (fun p q => p.1 < q.1))
    {table : Array (Option Nat)} (htable : table.size = 256) (b : UInt8) :
    (l.foldl (fun table p => table.setIfInBounds p.1.toNat (some p.2)) table)[b.toNat]? =
      ((SortedMap.lookup l b).map some).or table[b.toNat]? := by
  induction l generalizing table with
  | nil => rfl
  | cons p l ih =>
      obtain ⟨hp, hl'⟩ := List.pairwise_cons.1 hl
      rw [List.foldl_cons, ih hl' (by rwa [Array.size_setIfInBounds]), SortedMap.lookup_cons,
        Array.getElem?_setIfInBounds]
      by_cases hb : p.1 = b
      · have hnone : SortedMap.lookup l b = none :=
          SortedMap.lookup_eq_none_of_lt fun q hq => hb ▸ hp q hq
        have hlt : p.1.toNat < table.size := htable ▸ p.1.toNat_lt
        rw [if_pos hb, hnone, ← hb, if_pos rfl, if_pos hlt]
        rfl
      · have hne : p.1.toNat ≠ b.toNat := fun h => hb (UInt8.toNat_inj.1 h)
        rw [if_neg hne, if_neg hb]

theorem getElem?_rowTable (row : SortedMap UInt8 Nat) (b : UInt8) :
    (rowTable row)[b.toNat]? = some (row.get? b) := by
  have hlt : b.toNat < 256 := b.toNat_lt
  rw [rowTable, getElem?_foldl_set row.sorted Array.size_replicate, ← SortedMap.get?_eq_lookup,
    Array.getElem?_replicate, if_pos hlt]
  cases row.get? b <;> rfl

/-- In a list of pieces of one length, the places of piece `s` follow those of the pieces before. -/
theorem getElem?_flatten {α : Type} {width : Nat} {pieces : List (List α)}
    (h : ∀ piece ∈ pieces, piece.length = width) (s : Nat) {i : Nat} (hi : i < width) :
    pieces.flatten[s * width + i]? = pieces[s]?.bind fun piece => piece[i]? := by
  induction pieces generalizing s with
  | nil => simp
  | cons piece pieces ih =>
      have hpiece : piece.length = width := h piece List.mem_cons_self
      rw [List.flatten_cons]
      cases s with
      | zero =>
          rw [Nat.zero_mul, Nat.zero_add, List.getElem?_append_left (hpiece ▸ hi)]
          rfl
      | succ s =>
          rw [List.getElem?_append_right (by rw [hpiece, Nat.succ_mul]; omega), hpiece,
            List.getElem?_cons_succ, ← ih (fun p hp => h p (List.mem_cons_of_mem piece hp)) s]
          congr 1
          rw [Nat.succ_mul]
          omega

theorem next?_ofDfa (d : Dfa) (s : Nat) (b : UInt8) : (ofDfa d).next? s b = d.next? s b := by
  have hwidth : ∀ piece ∈ (d.rows.map rowTable).toList.map Array.toList, piece.length = 256 := by
    intro piece hpiece
    obtain ⟨table, htable, rfl⟩ := List.mem_map.1 hpiece
    rw [Array.toList_map] at htable
    obtain ⟨row, -, rfl⟩ := List.mem_map.1 htable
    rw [Array.length_toList, rowTable_size]
  have hplace : (ofDfa d).table[s * 256 + b.toNat]? =
      d.rows[s]?.bind fun row => (rowTable row)[b.toNat]? := by
    rw [ofDfa, ← Array.getElem?_toList, Array.toList_flatten, getElem?_flatten hwidth s b.toNat_lt]
    cases h : d.rows[s]? <;> simp [h]
  rw [next?, hplace, Dfa.next?, Dfa.row]
  cases d.rows[s]? with
  | none => rfl
  | some row =>
      rw [Option.bind_some, getElem?_rowTable]
      rfl

theorem accepts_ofDfa {d : Dfa} (hd : d.Valid) (s : Nat) : (ofDfa d).accepts s = d.isFinal s := by
  rw [accepts, ofDfa, List.getElem?_toArray, List.getElem?_map]
  by_cases hs : s < d.size
  · rw [List.getElem?_range hs]
    rfl
  · have hlength : (List.range d.size).length ≤ s := by
      rw [List.length_range]
      omega
    rw [List.getElem?_eq_none hlength, Option.map_none, Option.getD_none, eq_comm,
      Bool.eq_false_iff]
    exact fun hfinal => hs (hd.final_lt (Dfa.isFinal_iff.1 hfinal))

/-! ### The scan -/

/-- The final state, if it is one, that the first `k` bytes of a word lead to. -/
def acceptedAt (d : Dfa) (s : Nat) (w : List UInt8) (k : Nat) : Option Nat :=
  (d.run s (w.take k)).filter d.isFinal

variable {d : Dfa}

@[simp] theorem acceptedAt_zero (s : Nat) (w : List UInt8) :
    acceptedAt d s w 0 = if d.isFinal s then some s else none := rfl

theorem acceptedAt_cons (s : Nat) (b : UInt8) (w : List UInt8) (k : Nat) :
    acceptedAt d s (b :: w) (k + 1) = (d.next? s b).bind fun t => acceptedAt d t w k := by
  rw [acceptedAt, List.take_succ_cons, Dfa.run_cons]
  cases d.next? s b <;> rfl

theorem recognize_take (w : List UInt8) (k : Nat) :
    d.recognize (w.take k) = (acceptedAt d 0 w k).isSome := by
  rw [Dfa.recognize, acceptedAt]
  cases d.run 0 (w.take k) with
  | none => rfl
  | some s => cases h : d.isFinal s <;> simp [Option.filter, h]

/-- The scan ends with the longest word that is accepted after at least one byte, or else with what
it started with. -/
theorem scan_spec (hd : d.Valid) (s i : Nat) (last : Option (Nat × Nat)) (w : List UInt8) :
    (∃ k t, 0 < k ∧ k ≤ w.length ∧ acceptedAt d s w k = some t ∧
      (∀ k', k < k' → k' ≤ w.length → acceptedAt d s w k' = none) ∧
      ((ofDfa d).scan s i last w).1 = some (i + k, t)) ∨
    ((∀ k, 0 < k → k ≤ w.length → acceptedAt d s w k = none) ∧
      ((ofDfa d).scan s i last w).1 = last) := by
  induction w generalizing s i last with
  | nil =>
      refine .inr ⟨fun k hpos hk => ?_, rfl⟩
      rw [List.length_nil] at hk
      omega
  | cons b w ih =>
      rw [scan, next?_ofDfa]
      cases hnext : d.next? s b with
      | none =>
          refine .inr ⟨fun k hpos _ => ?_, rfl⟩
          obtain ⟨k, rfl⟩ : ∃ j, k = j + 1 := ⟨k - 1, by omega⟩
          rw [acceptedAt_cons, hnext, Option.bind_none]
      | some t =>
          have hrest : ∀ k, acceptedAt d s (b :: w) (k + 1) = acceptedAt d t w k := by
            intro k
            rw [acceptedAt_cons, hnext, Option.bind_some]
          -- Nothing longer is accepted here than after the first byte.
          have hlonger : ∀ {k}, (∀ k', k < k' → k' ≤ w.length → acceptedAt d t w k' = none) →
              ∀ k', k + 1 < k' → k' ≤ (b :: w).length → acceptedAt d s (b :: w) k' = none := by
            intro k hnone k' hlt hk'
            obtain ⟨k', rfl⟩ : ∃ j, k' = j + 1 := ⟨k' - 1, by omega⟩
            rw [hrest]
            exact hnone k' (Nat.lt_of_succ_lt_succ hlt) (Nat.le_of_succ_le_succ hk')
          dsimp only
          rw [accepts_ofDfa hd]
          rcases ih t (i + 1) (if d.isFinal t then some (i + 1, t) else last) with
            ⟨k, u, hpos, hk, hu, hmax, hscan⟩ | ⟨hnone, hscan⟩
          · refine .inl ⟨k + 1, u, Nat.succ_pos k, Nat.succ_le_succ hk, ?_, hlonger hmax, ?_⟩
            · rw [hrest, hu]
            · rw [hscan, Nat.add_assoc, Nat.add_comm 1]
          · rw [hscan]
            have hone := hrest 0
            rw [acceptedAt_zero] at hone
            by_cases hfinal : d.isFinal t = true
            · rw [if_pos hfinal] at hone ⊢
              exact .inl ⟨1, t, Nat.one_pos, Nat.succ_pos _, hone, hlonger hnone, rfl⟩
            · rw [if_neg hfinal] at hone ⊢
              refine .inr ⟨fun k hpos hk => ?_, rfl⟩
              rcases Nat.lt_or_eq_of_le (Nat.succ_le_of_lt hpos) with hlt | rfl
              · exact hlonger hnone k hlt hk
              · exact hone

/-- A match ends at the longest accepted word, in the state that the word leads to; without a match
no word is accepted. -/
theorem longestMatch_spec (hd : d.Valid) (input : List UInt8) (pos : Nat) :
    match (ofDfa d).longestMatch input pos with
    | .ok m => m.start = pos ∧ ∃ k ≤ (input.drop pos).length, m.stop = pos + k ∧
        acceptedAt d 0 (input.drop pos) k = some m.state ∧
        ∀ k', k < k' → k' ≤ (input.drop pos).length → acceptedAt d 0 (input.drop pos) k' = none
    | .error _ => ∀ k ≤ (input.drop pos).length, acceptedAt d 0 (input.drop pos) k = none := by
  rw [longestMatch, accepts_ofDfa hd]
  generalize hlast : (if d.isFinal 0 then some (pos, 0) else none) = last
  rcases hscan : (ofDfa d).scan 0 pos last (input.drop pos) with ⟨found, i⟩
  rcases scan_spec hd 0 pos last (input.drop pos) with ⟨k, t, -, hk, ht, hmax, heq⟩ | ⟨hnone, heq⟩
  · rw [hscan] at heq
    obtain rfl : found = some (pos + k, t) := heq
    exact ⟨rfl, k, hk, rfl, ht, hmax⟩
  · rw [hscan] at heq
    obtain rfl : found = last := heq
    by_cases hfinal : d.isFinal 0 = true
    · rw [if_pos hfinal] at hlast
      subst hlast
      exact ⟨rfl, 0, Nat.zero_le _, rfl, by rw [acceptedAt_zero, if_pos hfinal], hnone⟩
    · rw [if_neg hfinal] at hlast
      subst hlast
      intro k hk
      rcases Nat.eq_zero_or_pos k with rfl | hpos
      · rw [acceptedAt_zero, if_neg hfinal]
      · exact hnone k hpos hk

theorem exists_longestMatch (hd : d.Valid) (hfinal : d.isFinal 0 = true)
    (input : List UInt8) (pos : Nat) : ∃ m, (ofDfa d).longestMatch input pos = .ok m := by
  have hspec := longestMatch_spec hd input pos
  cases hmatch : (ofDfa d).longestMatch input pos with
  | ok m => exact ⟨m, rfl⟩
  | error i =>
      rw [hmatch] at hspec
      have hzero := hspec 0 (Nat.zero_le _)
      rw [acceptedAt_zero, if_pos hfinal] at hzero
      contradiction

/-- Whatever the table is, a scan remembers a place that it came to. -/
theorem scan_last {r : Recognizer} {s i stop state : Nat} {last : Option (Nat × Nat)}
    {w : List UInt8} (h : (r.scan s i last w).1 = some (stop, state)) :
    last = some (stop, state) ∨ i < stop ∧ stop ≤ i + w.length := by
  induction w generalizing s i last with
  | nil => exact .inl h
  | cons b w ih =>
      rw [scan] at h
      cases hnext : r.next? s b with
      | none =>
          rw [hnext] at h
          exact .inl h
      | some t =>
          rw [hnext] at h
          rw [List.length_cons]
          rcases ih h with hlast | hbounds
          · split at hlast
            · cases hlast
              exact .inr (by omega)
            · exact .inl hlast
          · exact .inr (by omega)

theorem longestMatch_bounds {r : Recognizer} {input : List UInt8} {pos : Nat} {m : Match}
    (h : r.longestMatch input pos = .ok m) :
    m.start = pos ∧ pos ≤ m.stop ∧ m.stop ≤ pos + (input.drop pos).length := by
  rw [longestMatch] at h
  split at h
  · rename_i stop state i hscan
    obtain rfl := Except.ok.inj h
    refine ⟨rfl, ?_⟩
    rcases scan_last (congrArg Prod.fst hscan) with hlast | hbounds
    · split at hlast
      · cases hlast
        exact ⟨Nat.le_refl _, Nat.le_add_right _ _⟩
      · contradiction
    · exact ⟨Nat.le_of_lt hbounds.1, hbounds.2⟩
  · contradiction

/-- How many bytes can be read before there is nothing to read or the next one leads nowhere. -/
def readable (d : Dfa) (s : Nat) (w : List UInt8) : Set Nat :=
  {k | k = w.length ∨ d.run s (w.take (k + 1)) = none}

theorem scan_stop (d : Dfa) (s i : Nat) (last : Option (Nat × Nat)) (w : List UInt8) :
    ∃ k, ((ofDfa d).scan s i last w).2 = i + k ∧ IsLeast (readable d s w) k := by
  induction w generalizing s i last with
  | nil => exact ⟨0, rfl, .inl rfl, fun k _ => Nat.zero_le k⟩
  | cons b w ih =>
      rw [scan, next?_ofDfa]
      cases hnext : d.next? s b with
      | none =>
          refine ⟨0, rfl, .inr ?_, fun k _ => Nat.zero_le k⟩
          rw [List.take_succ_cons, Dfa.run_cons, hnext, Option.bind_none]
      | some t =>
          have hrest : ∀ k, k + 1 ∈ readable d s (b :: w) ↔ k ∈ readable d t w := by
            intro k
            show k + 1 = w.length + 1 ∨ d.run s (b :: w.take (k + 1)) = none ↔
              k = w.length ∨ d.run t (w.take (k + 1)) = none
            rw [Dfa.run_cons, hnext, Option.bind_some, Nat.add_right_cancel_iff]
          obtain ⟨k, hstop, hmem, hleast⟩ := ih t (i + 1)
            (if (ofDfa d).accepts t then some (i + 1, t) else last)
          refine ⟨k + 1, ?_, (hrest k).2 hmem, fun j hj => ?_⟩
          · rw [hstop]
            omega
          · cases j with
            | zero =>
                rcases hj with hj | hj
                · simp at hj
                · rw [List.take_succ_cons, List.take_zero, Dfa.run_cons, hnext] at hj
                  contradiction
            | succ j => exact Nat.succ_le_succ (hleast ((hrest j).1 hj))

theorem longestMatch_error {input : List UInt8} {pos i : Nat}
    (h : (ofDfa d).longestMatch input pos = .error i) :
    ∃ k, i = pos + k ∧ IsLeast (readable d 0 (input.drop pos)) k := by
  rw [longestMatch] at h
  split at h
  · contradiction
  · rename_i hscan
    obtain ⟨k, hstop, hk⟩ := scan_stop d 0 pos
      (if (ofDfa d).accepts 0 then some (pos, 0) else none) (input.drop pos)
    rw [hscan] at hstop
    exact ⟨k, (Except.error.inj h).symm.trans hstop, hk⟩

end Recognizer

end Seedling.Automaton
