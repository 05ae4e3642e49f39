import Seedling.Proofs.Source.Lines
import Seedling.Proofs.Text.Utf8

/-!
The lines that an index tells apart are the pieces of the text between its newlines. A text cut
at an offset shows where the line of the offset begins and ends: it begins behind the last
newline before the cut and ends before the first one after it.
-/

namespace Seedling.Source

open Text (bytes encoded)

/-! ### Pieces between newlines -/

theorem length_splitOn_newline (bs : List UInt8) :
    (bs.splitOn newline).length = bs.count newline + 1 := by
  induction bs with
  | nil => rfl
  | cons b bs ih =>
      rw [List.splitOn_cons_eq_if_modifyHead, List.count_cons]
      by_cases hb : b = newline
      · simp [hb, ih]
      · simp [hb, ih]

theorem getElem?_zero_splitOn_newline (bs : List UInt8) :
    (bs.splitOn newline)[0]? = some (bs.takeWhile (· ≠ newline)) := by
  induction bs with
  | nil => rfl
  | cons b bs ih =>
      rw [List.splitOn_cons_eq_if_modifyHead]
      by_cases hb : b = newline
      · simp [hb]
      · cases hpieces : bs.splitOn newline with
        | nil => exact absurd hpieces (List.splitOn_ne_nil _ _)
        | cons piece pieces =>
            rw [hpieces] at ih
            simp_all

/-- The piece around a cut is the rest of its line before the cut and the beginning after it. -/
theorem getElem?_splitOn_newline (bs cs : List UInt8) :
    ((bs ++ cs).splitOn newline)[bs.count newline]? =
      some (bs.drop (bs.length - trailing bs) ++ cs.takeWhile (· ≠ newline)) := by
  induction bs using List.reverseRecOn generalizing cs with
  | nil => exact getElem?_zero_splitOn_newline cs
  | append_singleton bs b ih =>
      rw [List.append_assoc, List.singleton_append, List.count_append, List.count_singleton,
        trailing_concat, List.length_append, List.length_singleton]
      by_cases hb : b = newline
      · subst hb
        have hend : (bs ++ [newline]).drop (bs.length + 1) = [] := List.drop_eq_nil_of_le (by simp)
        rw [List.splitOn_append_cons_self, beq_self_eq_true, if_pos rfl, if_pos rfl,
          Nat.sub_zero, hend, ← length_splitOn_newline,
          List.getElem?_append_right (Nat.le_refl _), Nat.sub_self,
          getElem?_zero_splitOn_newline, List.nil_append]
      · have hle : bs.length - trailing bs ≤ bs.length := Nat.sub_le _ _
        simp [hb, ih, List.drop_append_of_le_length hle]

theorem exists_count_take_eq (bs : List UInt8) {n : Nat} (hn : n ≤ bs.count newline) :
    ∃ offset ≤ bs.length, (bs.take offset).count newline = n := by
  induction bs generalizing n with
  | nil =>
      rw [List.count_nil, Nat.le_zero] at hn
      exact ⟨0, Nat.le_refl 0, hn.symm⟩
  | cons b bs ih =>
      cases n with
      | zero => exact ⟨0, Nat.zero_le _, rfl⟩
      | succ n =>
          rw [List.count_cons] at hn
          by_cases hb : b = newline
          · obtain ⟨offset, hle, hcount⟩ := ih (n := n) (by simp [hb] at hn; omega)
            exact ⟨offset + 1, Nat.succ_le_succ hle, by simp [hb, hcount]⟩
          · obtain ⟨offset, hle, hcount⟩ := ih (n := n + 1) (by simpa [hb] using hn)
            exact ⟨offset + 1, Nat.succ_le_succ hle, by simp [hb, hcount]⟩

theorem notMem_of_mem_splitOn {α : Type} [DecidableEq α] {a : α} {l piece : List α}
    (h : piece ∈ l.splitOn a) : a ∉ piece := by
  induction l generalizing piece with
  | nil =>
      rw [List.splitOn_nil, List.mem_singleton] at h
      rw [h]
      exact List.not_mem_nil
  | cons b l ih =>
      rw [List.splitOn_cons_eq_if_modifyHead] at h
      split at h
      · rcases List.mem_cons.1 h with rfl | h
        · exact List.not_mem_nil
        · exact ih h
      · rename_i hb
        cases hpieces : l.splitOn a with
        | nil => exact absurd hpieces (List.splitOn_ne_nil _ _)
        | cons first rest =>
            rw [hpieces, List.modifyHead_cons] at h
            rcases List.mem_cons.1 h with rfl | h
            · rw [List.mem_cons, not_or]
              exact ⟨fun hab => hb (by simp [hab]), ih (hpieces ▸ List.mem_cons_self)⟩
            · exact ih (hpieces ▸ List.mem_cons_of_mem first h)

theorem splitOn_append_of_notMem {u : List UInt8} (hu : newline ∉ u) (v : List UInt8) :
    (u ++ v).splitOn newline = (v.splitOn newline).modifyHead (u ++ ·) := by
  induction u with
  | nil =>
      rw [List.nil_append]
      cases v.splitOn newline <;> rfl
  | cons b u ih =>
      rw [List.mem_cons, not_or] at hu
      rw [List.cons_append, List.splitOn_cons_eq_if_modifyHead,
        if_neg (by simpa using fun h => hu.1 h.symm), ih hu.2, List.modifyHead_modifyHead]
      rfl

/-- The characters of a text fall apart at a newline as its bytes do. -/
theorem splitOn_encoded (w : List Char) :
    (encoded w).splitOn newline = (w.splitOn '\n').map encoded := by
  induction w with
  | nil => rfl
  | cons c w ih =>
      rw [List.splitOn_cons_eq_if_modifyHead, Text.encoded_cons]
      by_cases hc : c = '\n'
      · subst hc
        have hbyte : String.utf8EncodeChar '\n' = [newline] := by decide
        rw [hbyte, List.singleton_append, List.splitOn_cons_eq_if_modifyHead, ih]
        rfl
      · have hbytes : newline ∉ String.utf8EncodeChar c := by
          intro h
          have hval := Text.toNat_eq_of_mem_utf8EncodeChar h (by decide)
          exact hc (Char.toNat_inj.1 hval)
        rw [splitOn_append_of_notMem hbytes, ih, if_neg (by simpa using hc)]
        cases w.splitOn '\n' with
        | nil => rfl
        | cons piece pieces => rfl

theorem splitOn_bytes (text : String) :
    (bytes text).splitOn newline = (text.toList.splitOn '\n').map encoded := by
  rw [Text.bytes_eq_encoded, splitOn_encoded]

/-! ### The range of a line -/

theorem head?_startsAfter (offset : Nat) (bs : List UInt8) :
    ((startsAfter offset bs).head?.map (· - 1)).getD (offset + bs.length) =
      offset + (bs.takeWhile (· ≠ newline)).length := by
  induction bs generalizing offset with
  | nil => rfl
  | cons b bs ih =>
      rw [startsAfter]
      by_cases hb : b = newline
      · simp [hb]
      · have hlen : offset + (b :: bs).length = offset + 1 + bs.length := by
          rw [List.length_cons]
          omega
        rw [if_neg hb, hlen, ih, List.takeWhile_cons_of_pos (by simpa using hb), List.length_cons]
        omega

theorem trailing_le_length (bs : List UInt8) : trailing bs ≤ bs.length := by
  have hsum := getLastD_startsAfter_add_trailing bs
  omega

theorem slice_append_add {start : Nat} {before : List UInt8} (h : start ≤ before.length)
    (after : List UInt8) (n : Nat) :
    slice (before ++ after) start (before.length + n) = before.drop start ++ after.take n := by
  rw [slice, List.take_length_add_append, List.drop_append_of_le_length h]

/-- The line around an offset begins behind the last newline before it and ends before the next. -/
theorem lineAt_eq_slice (bs : List UInt8) (offset : Nat) :
    lineAt bs offset =
      slice bs ((bs.take offset).length - trailing (bs.take offset))
        ((bs.take offset).length + ((bs.drop offset).takeWhile (· ≠ newline)).length) := by
  have hslice := slice_append_add (Nat.sub_le (bs.take offset).length (trailing (bs.take offset)))
    (bs.drop offset) ((bs.drop offset).takeWhile (· ≠ newline)).length
  have hrest := List.prefix_iff_eq_take.1
    (List.takeWhile_prefix (l := bs.drop offset) (· ≠ newline))
  rw [List.take_append_drop, ← hrest] at hslice
  rw [hslice, lineAt]

namespace LineIndex

@[simp] theorem lineCount_ofBytes (bs : List UInt8) :
    (ofBytes bs).lineCount = bs.count newline + 1 := by
  rw [lineCount, starts_ofBytes, List.length_cons, length_startsAfter]

theorem lineRange_isSome_iff (index : LineIndex) (i : Nat) :
    (index.lineRange i).isSome ↔ 1 ≤ i ∧ i ≤ index.lineCount := by
  rw [lineRange, lineCount]
  by_cases hi : i = 0
  · simp [hi]
  · rw [if_neg hi, Option.isSome_map, isSome_getElem?]
    omega

theorem lineRange_append (bs cs : List UInt8) :
    (ofBytes (bs ++ cs)).lineRange (bs.count newline + 1) =
      some (bs.length - trailing bs, bs.length + (cs.takeWhile (· ≠ newline)).length) := by
  have hstarts : (ofBytes (bs ++ cs)).starts =
      (0 :: startsAfter 0 bs) ++ startsAfter bs.length cs := by
    rw [starts_ofBytes, startsAfter_append, Nat.zero_add, List.cons_append]
  have hcount : (0 :: startsAfter 0 bs).length = bs.count newline + 1 := by
    rw [List.length_cons, length_startsAfter]
  have hstart : (ofBytes (bs ++ cs)).starts[bs.count newline]? =
      some (bs.length - trailing bs) := by
    have hlast := getLastD_startsAfter_add_trailing bs
    rw [hstarts, List.getElem?_append_left (by omega)]
    rw [List.getLastD_eq_getLast?, List.getLast?_eq_getElem?, hcount, Nat.add_sub_cancel] at hlast
    rw [List.getElem?_eq_getElem (by omega), Option.getD_some] at hlast
    rw [List.getElem?_eq_getElem (by omega)]
    congr 1
    omega
  have hstop : (ofBytes (bs ++ cs)).starts[bs.count newline + 1]? =
      (startsAfter bs.length cs).head? := by
    rw [hstarts, List.getElem?_append_right (by omega), hcount, Nat.sub_self,
      List.head?_eq_getElem?]
  have hlength : (ofBytes (bs ++ cs)).length = bs.length + cs.length := List.length_append
  rw [lineRange, if_neg (Nat.succ_ne_zero _), Nat.add_sub_cancel, hstart, hstop, hlength,
    head?_startsAfter]
  rfl

theorem lineRange_position (bs : List UInt8) (offset : Nat) :
    ∃ start stop, (ofBytes bs).lineRange ((ofBytes bs).position offset).line = some (start, stop) ∧
      start ≤ min offset bs.length ∧ min offset bs.length ≤ stop ∧
      ((ofBytes bs).position offset).column = min offset bs.length - start + 1 ∧
      lineAt bs offset = slice bs start stop := by
  have hrange := lineRange_append (bs.take offset) (bs.drop offset)
  have htrailing := trailing_le_length (bs.take offset)
  rw [List.take_append_drop] at hrange
  rw [position_ofBytes, ← List.length_take]
  refine ⟨_, _, hrange, Nat.sub_le _ _, Nat.le_add_right _ _, ?_, lineAt_eq_slice bs offset⟩
  show trailing (bs.take offset) + 1 = _
  omega

/-- The lines by number are the pieces between the newlines. -/
theorem getElem?_splitOn_of_lineRange {bs : List UInt8} {i start stop : Nat}
    (h : (ofBytes bs).lineRange i = some (start, stop)) :
    (bs.splitOn newline)[i - 1]? = some (slice bs start stop) := by
  obtain ⟨hpos, hle⟩ := ((ofBytes bs).lineRange_isSome_iff i).1 (by rw [h]; rfl)
  rw [lineCount_ofBytes] at hle
  obtain ⟨offset, -, hcount⟩ := exists_count_take_eq bs (n := i - 1) (by omega)
  obtain ⟨start', stop', hrange, -, -, -, hline⟩ := lineRange_position bs offset
  have hnumber : ((ofBytes bs).position offset).line = i := by
    rw [position_ofBytes]
    show (bs.take offset).count newline + 1 = i
    omega
  have hpiece := getElem?_splitOn_newline (bs.take offset) (bs.drop offset)
  rw [List.take_append_drop, hcount] at hpiece
  rw [hnumber, h] at hrange
  cases hrange
  rw [hpiece, ← hline, lineAt]

/-- The lines of a text are what stands between its newlines. Every number up to their count has
one, and every offset lies on the line that its position tells, which is the line that is found
around it. -/
theorem lines_partition (text : String) :
    (∀ i, ((ofBytes (bytes text)).lineRange i).isSome ↔
        1 ≤ i ∧ i ≤ (ofBytes (bytes text)).lineCount) ∧
      (∃ lines : List String, lines.length = (ofBytes (bytes text)).lineCount ∧
        (∀ i start stop, (ofBytes (bytes text)).lineRange i = some (start, stop) →
          lines[i - 1]?.map bytes = some (slice (bytes text) start stop)) ∧
        "\n".intercalate lines = text ∧ ∀ line ∈ lines, '\n' ∉ line.toList) ∧
      ∀ offset, ∃ start stop,
        (ofBytes (bytes text)).lineRange ((ofBytes (bytes text)).position offset).line =
          some (start, stop) ∧
        start ≤ min offset (bytes text).length ∧ min offset (bytes text).length ≤ stop ∧
        ((ofBytes (bytes text)).position offset).column =
          min offset (bytes text).length - start + 1 ∧
        lineAt (bytes text) offset = slice (bytes text) start stop := by
  have hbytes : ((text.toList.splitOn '\n').map String.ofList).map bytes =
      (bytes text).splitOn newline := by
    rw [splitOn_bytes, List.map_map]
    exact List.map_congr_left fun w _ => Text.bytes_ofList w
  refine ⟨lineRange_isSome_iff _, ⟨(text.toList.splitOn '\n').map String.ofList, ?_, ?_, ?_, ?_⟩,
    lineRange_position _⟩
  · rw [← List.length_map (f := bytes), hbytes, length_splitOn_newline, lineCount_ofBytes]
  · intro i start stop h
    rw [← List.getElem?_map, hbytes, getElem?_splitOn_of_lineRange h]
  · have hid : String.toList ∘ String.ofList = id := funext fun w => String.toList_ofList
    rw [← String.toList_inj, String.toList_intercalate, List.map_map, hid, List.map_id]
    exact List.intercalate_splitOn '\n'
  · intro line hline
    obtain ⟨w, hw, rfl⟩ := List.mem_map.1 hline
    rw [String.toList_ofList]
    exact notMem_of_mem_splitOn hw

end LineIndex

end Seedling.Source
