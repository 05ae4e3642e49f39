import Mathlib.Data.List.DropRight
import Seedling.Proofs.Source.Partition

/-!
Where an excerpt puts its caret. The number of a source line is padded to four places, and the
line of the caret begins with five blanks: so the caret stands under its byte as long as four
places are enough for the number.
-/

namespace Seedling.Source

open Text (bytes encoded)

def blank : UInt8 := 32

def bar : UInt8 := 124

def caret : UInt8 := 94

def beforeCaret (line : List UInt8) : Nat := (line.takeWhile (· ≠ caret)).length

/-- How many bytes of a printed line its gutter has, which ends with a bar and a blank. -/
def gutterLength (line : List UInt8) : Nat := (line.takeWhile (· ≠ bar)).length + 2

/-- A line without the carriage returns at its end. -/
def trimmed (line : List UInt8) : List UInt8 := line.rdropWhile (· = carriageReturn)

/-! ### Gutters -/

/-- The number of a line, padded to four places. -/
def paddedNumber (i : Nat) : List UInt8 :=
  List.replicate (4 - (Nat.toDigits 10 i).length) blank ++ encoded (Nat.toDigits 10 i)

theorem length_paddedNumber (i : Nat) :
    (paddedNumber i).length = max 4 (Nat.toDigits 10 i).length := by
  have hdigits : encoded (Nat.toDigits 10 i) = (Nat.toDigits 10 i).map Char.toUInt8 :=
    Text.encoded_eq_map fun c hc => by
      have hdigit := Text.toNat_of_mem_toDigits hc
      omega
  rw [paddedNumber, List.length_append, List.length_replicate, hdigits, List.length_map]
  omega

theorem notMem_paddedNumber {b : UInt8} (hplain : b.toNat < 128) (hblank : b ≠ blank)
    (hdigit : b.toNat < 48 ∨ 57 < b.toNat) (i : Nat) : b ∉ paddedNumber i := by
  intro hb
  rcases List.mem_append.1 hb with hb | hb
  · exact hblank (List.eq_of_mem_replicate hb)
  · obtain ⟨c, hc, hbc⟩ := List.mem_flatMap.1 hb
    have hval := Text.toNat_eq_of_mem_utf8EncodeChar hbc hplain
    have hbounds := Text.toNat_of_mem_toDigits hc
    omega

theorem bytes_blanks (n : Nat) :
    bytes (String.ofList (List.replicate n ' ')) = List.replicate n blank :=
  Text.bytes_replicate (by decide) n

theorem bytes_padLeft (i : Nat) : bytes (padLeft 4 (toString i)) = paddedNumber i := by
  rw [Nat.toString_eq_ofList_toDigits, padLeft, Text.bytes_append, bytes_blanks, Text.bytes_ofList,
    String.length_ofList]
  rfl

/-! ### Printed lines -/

/-- The line with a number, as it is printed. -/
def numberedLine (i : Nat) (line : List UInt8) : List UInt8 :=
  paddedNumber i ++ [blank, bar, blank] ++ line

theorem bytes_numberedLine (i : Nat) (line : String) :
    bytes (padLeft 4 (toString i) ++ " | " ++ line ++ "\n") =
      numberedLine i (bytes line) ++ [newline] := by
  have hbar : bytes " | " = [blank, bar, blank] := by decide +kernel
  have hnewline : bytes "\n" = [newline] := by decide +kernel
  rw [Text.bytes_append, Text.bytes_append, Text.bytes_append, bytes_padLeft, hbar, hnewline]
  rfl

theorem gutterLength_numberedLine (i : Nat) (line : List UInt8) :
    gutterLength (numberedLine i line) = max 4 (Nat.toDigits 10 i).length + 3 := by
  have hnumber : ∀ b ∈ paddedNumber i, decide (b ≠ bar) = true := by
    intro b hb
    have hbar := notMem_paddedNumber (b := bar) (by decide) (by decide) (by decide) i
    exact decide_eq_true fun h => hbar (h ▸ hb)
  rw [gutterLength, numberedLine, List.append_assoc, List.takeWhile_append_of_pos hnumber,
    List.length_append, length_paddedNumber]
  rfl

theorem drop_gutterLength_numberedLine (i : Nat) (line : List UInt8) :
    (numberedLine i line).drop (gutterLength (numberedLine i line)) = line := by
  have hlength : (paddedNumber i ++ [blank, bar, blank]).length =
      max 4 (Nat.toDigits 10 i).length + 3 := by
    rw [List.length_append, length_paddedNumber]
    rfl
  rw [gutterLength_numberedLine, ← hlength, numberedLine, List.drop_left]

theorem newline_notMem_numberedLine {line : List UInt8} (h : newline ∉ line) (i : Nat) :
    newline ∉ numberedLine i line := by
  have hnumber := notMem_paddedNumber (b := newline) (by decide) (by decide) (by decide) i
  rw [numberedLine, List.mem_append, List.mem_append]
  rintro ((hmem | hmem) | hmem)
  · exact hnumber hmem
  · exact absurd hmem (by decide)
  · exact h hmem

/-- What stands before a caret: a gutter without a number, and some blanks. -/
def caretGutter (n : Nat) : List UInt8 :=
  List.replicate 5 blank ++ [bar, blank] ++ List.replicate n blank

theorem bytes_caretGutter (n : Nat) :
    bytes ("     | " ++ String.ofList (List.replicate n ' ') ++ "^") =
      caretGutter n ++ [caret] := by
  have hgutter : bytes "     | " = List.replicate 5 blank ++ [bar, blank] := by decide +kernel
  have hcaret : bytes "^" = [caret] := by decide +kernel
  rw [Text.bytes_append, Text.bytes_append, bytes_blanks, hgutter, hcaret]
  rfl

theorem mem_caretGutter {n : Nat} {b : UInt8} (hb : b ∈ caretGutter n) : b = blank ∨ b = bar := by
  rw [caretGutter, List.mem_append, List.mem_append] at hb
  rcases hb with (hb | hb) | hb
  · exact .inl (List.eq_of_mem_replicate hb)
  · simpa [or_comm] using hb
  · exact .inl (List.eq_of_mem_replicate hb)

@[simp] theorem length_caretGutter (n : Nat) : (caretGutter n).length = 7 + n := by
  rw [caretGutter, List.length_append, List.length_replicate]
  rfl

theorem beforeCaret_caretGutter (n : Nat) : beforeCaret (caretGutter n ++ [caret]) = 7 + n := by
  have hblanks : ∀ b ∈ caretGutter n, decide (b ≠ caret) = true := by
    intro b hb
    rcases mem_caretGutter hb with rfl | rfl <;> decide
  rw [beforeCaret, List.takeWhile_append_of_pos hblanks, List.length_append, length_caretGutter]
  rfl

theorem newline_notMem_caretGutter (n : Nat) : newline ∉ caretGutter n ++ [caret] := by
  rw [List.mem_append, List.mem_singleton]
  rintro (hmem | hmem)
  · rcases mem_caretGutter hmem with h | h
    · exact absurd h (by decide)
    · exact absurd h (by decide)
  · exact absurd hmem (by decide)

theorem splitOn_printed {lines : List (List UInt8)} (h : ∀ line ∈ lines, newline ∉ line)
    {last : List UInt8} (hlast : newline ∉ last) :
    ((lines.map (· ++ [newline])).flatten ++ last).splitOn newline = lines ++ [last] := by
  induction lines with
  | nil => exact List.splitOn_eq_singleton hlast
  | cons line lines ih =>
      rw [List.forall_mem_cons] at h
      rw [List.map_cons, List.flatten_cons, List.append_assoc, List.append_assoc,
        List.singleton_append, List.splitOn_append_cons_self_of_not_mem h.1, ih h.2]
      rfl

/-! ### Source lines -/

theorem exists_encoded_of_lineRange {text : String} {i start stop : Nat}
    (h : (LineIndex.ofBytes (bytes text)).lineRange i = some (start, stop)) :
    ∃ w, encoded w = slice (bytes text) start stop := by
  have hpiece := List.mem_of_getElem? (LineIndex.getElem?_splitOn_of_lineRange h)
  rw [splitOn_bytes] at hpiece
  obtain ⟨w, -, hw⟩ := List.mem_map.1 hpiece
  exact ⟨w, hw⟩

/-- What an excerpt shows of a line are its bytes up to the carriage returns at the end. -/
theorem bytes_shownLine {text : String} {i start stop : Nat}
    (h : (LineIndex.ofBytes (bytes text)).lineRange i = some (start, stop)) :
    bytes (shownLine (bytes text) (.ofBytes (bytes text)) i) =
      trimmed (slice (bytes text) start stop) := by
  obtain ⟨w, hw⟩ := exists_encoded_of_lineRange h
  obtain ⟨w', hw'⟩ : ∃ w', encoded w' = trimmed (slice (bytes text) start stop) := by
    have happend : trimmed (slice (bytes text) start stop) ++
        (slice (bytes text) start stop).rtakeWhile (· = carriageReturn) =
          slice (bytes text) start stop := List.rdropWhile_append_rtakeWhile
    refine Text.exists_encoded_of_append (fun b hb => ?_) (hw.trans happend.symm)
    have hreturn : b = carriageReturn := by simpa using List.mem_rtakeWhile_imp hb
    rw [hreturn]
    decide
  rw [shownLine, h]
  show bytes (Text.decode (trimmed (slice (bytes text) start stop))) = _
  rw [← hw', Text.decode, Text.decodeChars_encoded, Text.bytes_ofList]

theorem newline_notMem_shownLine {text : String} {i : Nat}
    (hi : ((LineIndex.ofBytes (bytes text)).lineRange i).isSome) :
    newline ∉ bytes (shownLine (bytes text) (.ofBytes (bytes text)) i) := by
  obtain ⟨⟨start, stop⟩, h⟩ := Option.isSome_iff_exists.1 hi
  have hpiece := List.mem_of_getElem? (LineIndex.getElem?_splitOn_of_lineRange h)
  rw [bytes_shownLine h]
  exact fun hmem => notMem_of_mem_splitOn hpiece ((List.rdropWhile_prefix _ _).subset hmem)

/-! ### Excerpts -/

theorem bytes_join (l : List String) : bytes (String.join l) = (l.map bytes).flatten := by
  induction l with
  | nil => rfl
  | cons s l ih => rw [String.join_cons, Text.bytes_append, ih, List.map_cons, List.flatten_cons]

/-- The numbers of the lines that are shown for a line with so many lines before it. -/
def shownNumbers (line context : Nat) : List Nat :=
  List.range' (max (line - context) 1) (line + 1 - max (line - context) 1)

theorem shownNumbers_eq {line : Nat} (hline : 1 ≤ line) (context : Nat) :
    shownNumbers line context =
      List.range' (max (line - context) 1) (min context (line - 1)) ++ [line] := by
  have hcount : line + 1 - max (line - context) 1 = min context (line - 1) + 1 := by omega
  have hlast : max (line - context) 1 + min context (line - 1) = line := by omega
  rw [shownNumbers, hcount, List.range'_1_concat, hlast]

/-- The line with a number, as an excerpt prints it. -/
def printedLine (text : String) (i : Nat) : List UInt8 :=
  numberedLine i (bytes (shownLine (bytes text) (.ofBytes (bytes text)) i))

theorem bytes_excerpt (text : String) (offset context : Nat) :
    bytes (excerpt (bytes text) offset context) =
      (((shownNumbers ((LineIndex.ofBytes (bytes text)).position offset).line context).map
          (printedLine text)).map (· ++ [newline])).flatten ++
        (caretGutter (((LineIndex.ofBytes (bytes text)).position offset).column - 1) ++
          [caret]) := by
  have hprinted : bytes ∘ (fun i => padLeft 4 (toString i) ++ " | " ++
      shownLine (bytes text) (.ofBytes (bytes text)) i ++ "\n") =
        (· ++ [newline]) ∘ printedLine text := by
    funext i
    exact bytes_numberedLine i _
  rw [excerpt, List.map_map, ← hprinted, ← bytes_caretGutter]
  simp only [String.append_assoc]
  rw [Text.bytes_append, bytes_join, List.map_map]
  rfl

theorem splitOn_excerpt (text : String) (offset context : Nat) :
    (bytes (excerpt (bytes text) offset context)).splitOn newline =
      (shownNumbers ((LineIndex.ofBytes (bytes text)).position offset).line context).map
          (printedLine text) ++
        [caretGutter (((LineIndex.ofBytes (bytes text)).position offset).column - 1) ++
          [caret]] := by
  obtain ⟨start, stop, hrange, -⟩ := LineIndex.lineRange_position (bytes text) offset
  obtain ⟨hpos, hle⟩ := (LineIndex.lineRange_isSome_iff _ _).1 (Option.isSome_of_eq_some hrange)
  rw [bytes_excerpt]
  refine splitOn_printed (fun line hline => ?_) (newline_notMem_caretGutter _)
  obtain ⟨i, hi, rfl⟩ := List.mem_map.1 hline
  refine newline_notMem_numberedLine (newline_notMem_shownLine ?_) i
  rw [shownNumbers, List.mem_range'_1] at hi
  rw [LineIndex.lineRange_isSome_iff]
  omega

theorem printedLine_position (text : String) (offset : Nat) :
    printedLine text ((LineIndex.ofBytes (bytes text)).position offset).line =
      numberedLine ((LineIndex.ofBytes (bytes text)).position offset).line
        (trimmed (lineAt (bytes text) offset)) := by
  obtain ⟨start, stop, hrange, -, -, -, hline⟩ := LineIndex.lineRange_position (bytes text) offset
  rw [printedLine, bytes_shownLine hrange, hline]

/-- The last line of an excerpt is that of the caret, the line above shows the line of the offset,
and the caret stands under the byte at the offset just when the number of the line has at most four
digits: the gutter grows with the number, and what stands before the caret does not. -/
theorem caret_under_column_iff (text : String) (offset context : Nat) :
    ∃ earlier above below,
      (bytes (excerpt (bytes text) offset context)).splitOn newline = earlier ++ [above, below] ∧
      earlier.length = min context (((LineIndex.ofBytes (bytes text)).position offset).line - 1) ∧
      above.drop (gutterLength above) = trimmed (lineAt (bytes text) offset) ∧
      below.drop (beforeCaret below) = [caret] ∧
      gutterLength above =
        max 4 (Nat.toDigits 10 ((LineIndex.ofBytes (bytes text)).position offset).line).length + 3 ∧
      beforeCaret below = 7 + (((LineIndex.ofBytes (bytes text)).position offset).column - 1) ∧
      (beforeCaret below =
          gutterLength above + (((LineIndex.ofBytes (bytes text)).position offset).column - 1) ↔
        ((LineIndex.ofBytes (bytes text)).position offset).line < 10000) ∧
      (((LineIndex.ofBytes (bytes text)).position offset).line < 10000 →
        above[beforeCaret below]? = (trimmed (lineAt (bytes text) offset))[
          ((LineIndex.ofBytes (bytes text)).position offset).column - 1]?) := by
  have hline : 1 ≤ ((LineIndex.ofBytes (bytes text)).position offset).line := by
    rw [LineIndex.position_ofBytes]
    exact Nat.succ_le_succ (Nat.zero_le _)
  have hsplit := splitOn_excerpt text offset context
  rw [shownNumbers_eq hline, List.map_append, List.map_singleton, printedLine_position,
    List.append_assoc] at hsplit
  generalize ((LineIndex.ofBytes (bytes text)).position offset).line = line at hsplit hline
  generalize ((LineIndex.ofBytes (bytes text)).position offset).column - 1 = n at hsplit
  have hfour : (Nat.toDigits 10 line).length ≤ 4 ↔ line < 10000 :=
    Nat.length_toDigits_le_iff (by decide) (by decide)
  have hgutter := gutterLength_numberedLine line (trimmed (lineAt (bytes text) offset))
  have hcaret := beforeCaret_caretGutter n
  have hdrop := drop_gutterLength_numberedLine line (trimmed (lineAt (bytes text) offset))
  refine ⟨_, _, _, hsplit, ?_, hdrop, ?_, hgutter, hcaret, ?_, fun hlt => ?_⟩
  · rw [List.length_map, List.length_range']
  · rw [hcaret, ← length_caretGutter, List.drop_left]
  · rw [hcaret, hgutter]
    omega
  · have hunder : beforeCaret (caretGutter n ++ [caret]) =
        gutterLength (numberedLine line (trimmed (lineAt (bytes text) offset))) + n := by
      rw [hcaret, hgutter]
      omega
    rw [hunder, ← List.getElem?_drop, hdrop]

def newlines (n : Nat) : String := String.ofList (List.replicate n '\n')

theorem bytes_newlines (n : Nat) : bytes (newlines n) = List.replicate n newline :=
  Text.bytes_replicate (by decide) n

theorem trailing_newlines (n : Nat) : trailing (List.replicate n newline) = 0 := by
  simp [trailing]

theorem position_newlines (n : Nat) :
    (LineIndex.ofBytes (bytes (newlines n))).position n = ⟨n, n + 1, 1⟩ := by
  rw [LineIndex.position_ofBytes, bytes_newlines, Position.ofOffset,
    List.take_replicate, Nat.min_self, List.length_replicate, List.count_replicate_self,
    trailing_newlines]

theorem lineAt_newlines (n : Nat) : lineAt (bytes (newlines n)) n = [] := by
  rw [bytes_newlines, lineAt, List.take_replicate, Nat.min_self, trailing_newlines, Nat.sub_zero,
    List.drop_length, List.drop_replicate, Nat.sub_self]
  rfl

/-- On line 10000 the caret stands one byte too far to the left. -/
theorem caret_misplaced_newlines :
    (LineIndex.ofBytes (bytes (newlines 9999))).position 9999 = ⟨9999, 10000, 1⟩ ∧
      (bytes (excerpt (bytes (newlines 9999)) 9999 0)).splitOn newline =
        [bytes "10000 | ", bytes "     | ^"] ∧
      beforeCaret (bytes "     | ^") ≠ gutterLength (bytes "10000 | ") + (1 - 1) := by
  have hplace := position_newlines 9999
  have hsplit := splitOn_excerpt (newlines 9999) 9999 0
  rw [shownNumbers_eq (by rw [hplace]; decide), List.map_append, List.map_singleton,
    printedLine_position, lineAt_newlines, hplace] at hsplit
  refine ⟨hplace, hsplit.trans ?_, ?_⟩
  · decide +kernel
  · decide +kernel

end Seedling.Source
