import Mathlib.Data.List.Induction
import Seedling.Source.Lines

/-!
The line index gives the positions that counting from the start gives, and so does a position
that is carried along. The index is a sorted table, so it does not matter how the line of an
offset is looked up in it.
-/

namespace Seedling.Source

open Text (bytes)

theorem startsAfter_append (offset : Nat) (bs cs : List UInt8) :
    startsAfter offset (bs ++ cs) =
      startsAfter offset bs ++ startsAfter (offset + bs.length) cs := by
  induction bs generalizing offset with
  | nil => rfl
  | cons b bs ih =>
      have hlen : offset + 1 + bs.length = offset + (b :: bs).length := by
        rw [List.length_cons]
        omega
      rw [List.cons_append, startsAfter, startsAfter, ih, hlen]
      split
      · rw [List.cons_append]
      · rfl

theorem startsAfter_concat (offset : Nat) (bs : List UInt8) (b : UInt8) :
    startsAfter offset (bs ++ [b]) =
      startsAfter offset bs ++ if b = newline then [offset + bs.length + 1] else [] := by
  rw [startsAfter_append, startsAfter, startsAfter]

theorem trailing_concat (bs : List UInt8) (b : UInt8) :
    trailing (bs ++ [b]) = if b = newline then 0 else trailing bs + 1 := by
  rw [trailing, List.reverse_append, List.reverse_singleton, List.singleton_append,
    List.takeWhile_cons]
  by_cases hb : b = newline
  · simp [hb]
  · simp [hb, trailing]

/-- The bytes on the last line are those after the last newline, wherever the text is cut. -/
theorem trailing_append (bs cs : List UInt8) :
    trailing (bs ++ cs) =
      if cs.count newline = 0 then trailing bs + cs.length else trailing cs := by
  induction cs using List.reverseRecOn with
  | nil => rw [List.append_nil, List.count_nil, if_pos rfl, List.length_nil, Nat.add_zero]
  | append_singleton cs b ih =>
      rw [← List.append_assoc, trailing_concat, trailing_concat, ih, List.count_append,
        List.length_append, List.length_singleton, List.count_singleton]
      by_cases hb : b = newline
      · simp [hb]
      · by_cases hcs : cs.count newline = 0
        · simp [hb, hcs, Nat.add_assoc]
        · simp [hb, hcs]

namespace Position

theorem advance_append (p : Position) (bs cs : List UInt8) :
    p.advance (bs ++ cs) = (p.advance bs).advance cs := by
  simp only [advance, List.count_append, List.length_append, trailing_append]
  by_cases hbs : bs.count newline = 0
  · by_cases hcs : cs.count newline = 0
    · simp [hbs, hcs, Nat.add_assoc]
    · simp [hbs, hcs, Nat.add_assoc]
  · by_cases hcs : cs.count newline = 0
    · simp [hbs, hcs, Nat.add_assoc, Nat.add_comm, Nat.add_left_comm]
    · simp [hbs, hcs, Nat.add_assoc]

theorem foldl_advance (p : Position) (chunks : List (List UInt8)) :
    chunks.foldl advance p = p.advance chunks.flatten := by
  induction chunks generalizing p with
  | nil => rfl
  | cons chunk chunks ih => rw [List.foldl_cons, ih, List.flatten_cons, advance_append]

theorem ofOffset_eq_advance (bs : List UInt8) (offset : Nat) :
    ofOffset bs offset = start.advance (bs.take offset) := by
  have htrailing := trailing_append [] (bs.take offset)
  rw [List.nil_append] at htrailing
  rw [ofOffset, advance, start]
  dsimp only
  split
  · rename_i hnone
    rw [if_pos hnone] at htrailing
    rw [hnone, htrailing, Nat.zero_add, Nat.zero_add]
    simp [trailing, Nat.add_comm]
  · rw [Nat.zero_add, Nat.add_comm]

/-- A position that is carried along stays the position of its offset. -/
theorem advance_ofOffset (bs : List UInt8) (p n : Nat) :
    (ofOffset bs p).advance ((bs.drop p).take n) = ofOffset bs (p + n) := by
  rw [ofOffset_eq_advance, ofOffset_eq_advance, ← advance_append, List.take_add]

end Position

theorem length_startsAfter (offset : Nat) (bs : List UInt8) :
    (startsAfter offset bs).length = bs.count newline := by
  induction bs generalizing offset with
  | nil => rfl
  | cons b bs ih =>
      rw [startsAfter, List.count_cons]
      by_cases hb : b = newline
      · simp [hb, ih]
      · simp [hb, ih]

/-- The last line starts as many bytes before the end as stand on it. -/
theorem getLastD_startsAfter_add_trailing (bs : List UInt8) :
    (0 :: startsAfter 0 bs).getLastD 0 + trailing bs = bs.length := by
  induction bs using List.reverseRecOn with
  | nil => rfl
  | append_singleton bs b ih =>
      rw [startsAfter_concat, trailing_concat, List.length_append, List.length_singleton, ← ih]
      split
      · rw [← List.cons_append, List.getLastD_concat]
        omega
      · rw [List.append_nil]
        omega

theorem lt_of_mem_startsAfter {offset start : Nat} {bs : List UInt8}
    (h : start ∈ startsAfter offset bs) : offset < start := by
  induction bs generalizing offset with
  | nil => contradiction
  | cons b bs ih =>
      rw [startsAfter] at h
      split at h
      · rcases List.mem_cons.1 h with rfl | h
        · exact Nat.lt_succ_self offset
        · exact Nat.lt_of_succ_lt (ih h)
      · exact Nat.lt_of_succ_lt (ih h)

theorem takeWhile_startsAfter (offset n : Nat) (bs : List UInt8) :
    (startsAfter offset bs).takeWhile (· ≤ offset + n) = startsAfter offset (bs.take n) := by
  induction bs generalizing offset n with
  | nil => rw [List.take_nil, startsAfter, List.takeWhile_nil]
  | cons b bs ih =>
      cases n with
      | zero =>
          rw [List.take_zero, startsAfter.eq_1, Nat.add_zero]
          cases hstarts : startsAfter offset (b :: bs) with
          | nil => rfl
          | cons start starts =>
              have hlt := lt_of_mem_startsAfter (hstarts ▸ List.mem_cons_self)
              rw [List.takeWhile_cons_of_neg]
              simpa using hlt
      | succ n =>
          have hsum : offset + (n + 1) = offset + 1 + n := by omega
          rw [List.take_succ_cons, startsAfter, startsAfter, hsum]
          split
          · rw [List.takeWhile_cons_of_pos (by simp), ih]
          · exact ih (offset + 1) n

theorem pairwise_startsAfter (offset : Nat) (bs : List UInt8) :
    (offset :: startsAfter offset bs).Pairwise (· < ·) := by
  refine List.pairwise_cons.2 ⟨fun start hstart => lt_of_mem_startsAfter hstart, ?_⟩
  induction bs generalizing offset with
  | nil => exact .nil
  | cons b bs ih =>
      rw [startsAfter]
      split
      · exact List.pairwise_cons.2 ⟨fun start hstart => lt_of_mem_startsAfter hstart, ih _⟩
      · exact ih _

/-! ### Looking up an offset -/

/-- What a search for a value in a sorted table may answer: a place where it stands, or else the
place where it would have to be put. -/
inductive Finds (table : List Nat) (value : Nat) : Except Nat Nat → Prop where
  | found {i : Nat} : table[i]? = some value → Finds table value (.ok i)
  | missing {i : Nat} : i ≤ table.length → (∀ x ∈ table.take i, x < value) →
      (∀ x ∈ table.drop i, value < x) → Finds table value (.error i)

/-- How many entries up to the value a search has found. -/
def entriesUpTo : Except Nat Nat → Nat
  | .ok i => i + 1
  | .error i => i

theorem exists_finds {table : List Nat} (hsorted : table.Pairwise (· < ·)) (value : Nat) :
    ∃ answer, Finds table value answer := by
  induction table with
  | nil => exact ⟨.error 0, .missing (Nat.le_refl 0) (by simp) (by simp)⟩
  | cons x table ih =>
      obtain ⟨hx, htable⟩ := List.pairwise_cons.1 hsorted
      rcases Nat.lt_trichotomy value x with hlt | rfl | hlt
      · refine ⟨.error 0, .missing (Nat.zero_le _) (by simp) ?_⟩
        rw [List.drop_zero, List.forall_mem_cons]
        exact ⟨hlt, fun y hy => Nat.lt_trans hlt (hx y hy)⟩
      · exact ⟨.ok 0, .found rfl⟩
      · obtain ⟨answer, hanswer⟩ := ih htable
        cases hanswer with
        | @found i hi => exact ⟨.ok (i + 1), .found hi⟩
        | @missing i hle hbefore hafter =>
            refine ⟨.error (i + 1), .missing (Nat.succ_le_succ hle) ?_ hafter⟩
            rw [List.take_succ_cons, List.forall_mem_cons]
            exact ⟨hlt, hbefore⟩

theorem takeWhile_le_append {value : Nat} {before after : List Nat}
    (hbefore : ∀ x ∈ before, x ≤ value)
    (hafter : ∀ x ∈ after, value < x) : (before ++ after).takeWhile (· ≤ value) = before := by
  rw [List.takeWhile_append_of_pos (by simpa using hbefore)]
  cases after with
  | nil => rw [List.takeWhile_nil, List.append_nil]
  | cons x after =>
      rw [List.takeWhile_cons_of_neg (by simpa using hafter x List.mem_cons_self), List.append_nil]

/-- In a sorted table it does not matter how it is searched. -/
theorem Finds.takeWhile_eq {table : List Nat} {value : Nat} {answer : Except Nat Nat}
    (hsorted : table.Pairwise (· < ·)) (h : Finds table value answer) :
    table.takeWhile (· ≤ value) = table.take (entriesUpTo answer) ∧
      entriesUpTo answer ≤ table.length := by
  cases h with
  | @found i hi =>
      obtain ⟨hlt, rfl⟩ := List.getElem?_eq_some_iff.1 hi
      refine ⟨?_, hlt⟩
      rw [← List.take_append_drop (i + 1) table] at hsorted
      have hbefore : ∀ x ∈ table.take (i + 1), x ≤ table[i] := by
        rw [List.take_succ_eq_append_getElem hlt] at hsorted ⊢
        have hlast := (List.pairwise_append.1 (List.pairwise_append.1 hsorted).1).2.2
        simp only [List.mem_append, List.mem_singleton]
        rintro x (hx | rfl)
        · exact Nat.le_of_lt (hlast x hx _ (List.mem_singleton.2 rfl))
        · exact Nat.le_refl _
      have hafter : ∀ x ∈ table.drop (i + 1), table[i] < x := by
        have hmem : table[i] ∈ table.take (i + 1) := by
          rw [List.take_succ_eq_append_getElem hlt]
          exact List.mem_append_right _ (List.mem_singleton.2 rfl)
        exact (List.pairwise_append.1 hsorted).2.2 _ hmem
      have htake := takeWhile_le_append hbefore hafter
      rwa [List.take_append_drop] at htake
  | @missing i hle hbefore hafter =>
      have htake := takeWhile_le_append (fun x hx => Nat.le_of_lt (hbefore x hx)) hafter
      rw [List.take_append_drop] at htake
      exact ⟨htake, hle⟩

namespace LineIndex

theorem position_ofBytes (bs : List UInt8) (offset : Nat) :
    (ofBytes bs).position offset = .ofOffset bs offset := by
  have hmin : min offset bs.length = (bs.take offset).length := by
    rw [List.length_take]
  have hbefore : (0 :: startsAfter 0 bs).takeWhile (· ≤ (bs.take offset).length) =
      0 :: startsAfter 0 (bs.take offset) := by
    have htake := takeWhile_startsAfter 0 (bs.take offset).length bs
    rw [Nat.zero_add, ← hmin, ← List.take_eq_take_min] at htake
    rw [List.takeWhile_cons_of_pos (by simp), ← hmin, htake]
  have hlast := getLastD_startsAfter_add_trailing (bs.take offset)
  rw [position, Position.ofOffset, ofBytes]
  dsimp only
  rw [hmin, hbefore, List.length_cons, length_startsAfter]
  congr 1
  omega

theorem starts_ofBytes (bs : List UInt8) : (ofBytes bs).starts = 0 :: startsAfter 0 bs := rfl

theorem pairwise_starts (bs : List UInt8) : (ofBytes bs).starts.Pairwise (· < ·) :=
  pairwise_startsAfter 0 bs

/-- The position of an offset is read off at whatever place a search of the index ends. -/
theorem position_of_finds {bs : List UInt8} {offset : Nat} {answer : Except Nat Nat}
    (h : Finds (ofBytes bs).starts (min offset bs.length) answer) :
    ∃ start, (ofBytes bs).starts[entriesUpTo answer - 1]? = some start ∧
      (ofBytes bs).position offset =
        ⟨min offset bs.length, entriesUpTo answer, min offset bs.length - start + 1⟩ := by
  obtain ⟨htake, hle⟩ := h.takeWhile_eq (pairwise_starts bs)
  -- The first line starts at zero, so something was found.
  have hpos : 0 < entriesUpTo answer := by
    have hlength := congrArg List.length htake
    rw [starts_ofBytes, List.takeWhile_cons_of_pos (by simp), List.length_cons,
      List.length_take] at hlength
    omega
  have hlt : entriesUpTo answer - 1 < (ofBytes bs).starts.length := by omega
  have hlast : ((ofBytes bs).starts.take (entriesUpTo answer)).getLastD 0 =
      (ofBytes bs).starts[entriesUpTo answer - 1] := by
    rw [List.getLastD_eq_getLast?, List.getLast?_eq_getElem?, List.length_take, Nat.min_eq_left hle,
      List.getElem?_take_of_lt (by omega), List.getElem?_eq_getElem hlt, Option.getD_some]
  refine ⟨(ofBytes bs).starts[entriesUpTo answer - 1], List.getElem?_eq_getElem hlt, ?_⟩
  show Position.mk (min offset bs.length)
      ((ofBytes bs).starts.takeWhile (· ≤ min offset bs.length)).length
      (min offset bs.length -
        ((ofBytes bs).starts.takeWhile (· ≤ min offset bs.length)).getLastD 0 + 1) = _
  rw [htake, hlast, List.length_take, Nat.min_eq_left hle]

/-- The index, counting from the start and carrying a position along locate every offset alike,
however the text is cut into pieces and the index is searched. -/
theorem position_agrees (text : String) (offset : Nat) :
    (ofBytes (bytes text)).position offset = .ofOffset (bytes text) offset ∧
      .ofOffset (bytes text) offset =
        Position.start.advance ((bytes text).take (min offset (bytes text).length)) ∧
      (∃ answer, Finds (ofBytes (bytes text)).starts (min offset (bytes text).length) answer) ∧
      (∀ answer, Finds (ofBytes (bytes text)).starts (min offset (bytes text).length) answer →
        ∃ start, (ofBytes (bytes text)).starts[entriesUpTo answer - 1]? = some start ∧
          Position.ofOffset (bytes text) offset =
            ⟨min offset (bytes text).length, entriesUpTo answer,
              min offset (bytes text).length - start + 1⟩) ∧
      (∀ (p : Position) (bs cs : List UInt8), p.advance (bs ++ cs) = (p.advance bs).advance cs) ∧
      (∀ chunks : List (List UInt8), chunks.flatten = bytes text → ∀ n,
        (chunks.take n).foldl Position.advance .start =
          .ofOffset (bytes text) (chunks.take n).flatten.length) := by
  refine ⟨position_ofBytes _ _, ?_, exists_finds (pairwise_starts _) _, fun answer h => ?_,
    Position.advance_append, ?_⟩
  · rw [Position.ofOffset_eq_advance, ← List.take_eq_take_min]
  · rw [← position_ofBytes]
    exact position_of_finds h
  · intro chunks hchunks n
    have htake : (bytes text).take (chunks.take n).flatten.length = (chunks.take n).flatten := by
      rw [← hchunks, ← List.take_append_drop n chunks, List.flatten_append]
      simp
    rw [Position.foldl_advance, Position.ofOffset_eq_advance, htake]

end LineIndex

end Seedling.Source
