import Seedling.Text.Utf8

/-!
The bytes of a text read back as the text. In plain ASCII, where every character is one byte, a
piece of the bytes reads as that piece of the text.
-/

namespace Seedling.Text

/-- The bytes that may stand anywhere behind the first. -/
def anyTail : UInt8 × UInt8 := (0x80, 0xbf)

theorem toNat_ofNat {k : Nat} (hk : k < 256) : (UInt8.ofNat k).toNat = k :=
  UInt8.toNat_ofNat_of_lt hk

theorem tailRanges_ofNat {k : Nat} (hk : k < 256) :
    tailRanges (.ofNat k) =
      if k < 0xc2 then none
      else if k < 0xe0 then some (k - 0xc0, [anyTail])
      else if k = 0xe0 then some (0, [(0xa0, 0xbf), anyTail])
      else if k = 0xed then some (0xd, [(0x80, 0x9f), anyTail])
      else if k < 0xf0 then some (k - 0xe0, [anyTail, anyTail])
      else if k = 0xf0 then some (0, [(0x90, 0xbf), anyTail, anyTail])
      else if k < 0xf4 then some (k - 0xf0, [anyTail, anyTail, anyTail])
      else if k = 0xf4 then some (4, [(0x80, 0x8f), anyTail, anyTail])
      else none := by
  unfold tailRanges
  simp only [UInt8.lt_iff_toNat_lt, ← UInt8.toNat_inj, toNat_ofNat hk]
  rfl

theorem fitting_ofNat (lo hi : Nat) {k : Nat} (hk : k < 256) (hlo : lo ≤ k) (hhi : k ≤ hi)
    (hmax : hi < 256) (ranges : List (UInt8 × UInt8)) (bs : List UInt8) :
    fitting ((.ofNat lo, .ofNat hi) :: ranges) (.ofNat k :: bs) = fitting ranges bs + 1 := by
  rw [fitting, if_pos]
  rw [UInt8.le_iff_toNat_le, UInt8.le_iff_toNat_le, toNat_ofNat hk, toNat_ofNat hmax,
    toNat_ofNat (Nat.lt_of_le_of_lt hlo hk)]
  exact ⟨hlo, hhi⟩

theorem fitting_anyTail {n : Nat} (hn : n < 64) (ranges : List (UInt8 × UInt8)) (bs : List UInt8) :
    fitting (anyTail :: ranges) (.ofNat (n + 0x80) :: bs) = fitting ranges bs + 1 :=
  fitting_ofNat 0x80 0xbf (by omega) (by omega) (by omega) (by omega) ranges bs

theorem toNat_tail {n : Nat} (hn : n < 64) : (UInt8.ofNat (n + 0x80)).toNat - 0x80 = n := by
  rw [toNat_ofNat (by omega)]
  omega

theorem not_ofNat_lt {k : Nat} (hlo : 0x80 ≤ k) (hk : k < 256) : ¬ UInt8.ofNat k < 0x80 := by
  rw [UInt8.lt_iff_toNat_lt, toNat_ofNat hk]
  exact Nat.not_lt_of_le hlo

/-- The bytes that may stand behind a first one. -/
def IsTail (b : UInt8) : Prop := 0x80 ≤ b.toNat ∧ b.toNat ≤ 0xbf

theorem isTail_ofNat {n : Nat} (hn : n < 64) : IsTail (.ofNat (n + 0x80)) := by
  rw [IsTail, toNat_ofNat (by omega)]
  omega

/-- A first byte with all that it asks for, and the number that they spell together. -/
structure Spells (b : UInt8) (bits : Nat) (ranges : List (UInt8 × UInt8)) (tail : List UInt8)
    (v : Nat) : Prop where
  large : ¬ b < 0x80
  asks : tailRanges b = some (bits, ranges)
  length_eq : tail.length = ranges.length
  fits : fitting ranges tail = ranges.length
  value : tail.foldl (fun acc c => acc * 64 + (c.toNat - 0x80)) bits = v
  isTail : ∀ c ∈ tail, IsTail c

section Characters

variable {v : Nat}

theorem spells_two (hlo : 0x7f < v) (hhi : v ≤ 0x7ff) :
    Spells (.ofNat (v / 64 % 0x20 + 0xc0)) (v / 64) [anyTail] [.ofNat (v % 0x40 + 0x80)] v where
  large := not_ofNat_lt (by omega) (by omega)
  asks := by
    have hbits : v / 64 % 0x20 + 0xc0 - 0xc0 = v / 64 := by omega
    rw [tailRanges_ofNat (by omega), if_neg (by omega), if_pos (by omega), hbits]
  length_eq := rfl
  fits := fitting_anyTail (by omega) [] []
  value := by
    rw [List.foldl_cons, List.foldl_nil, toNat_tail (by omega), Nat.div_add_mod']
  isTail c hc := by
    rw [List.mem_singleton.1 hc]
    exact isTail_ofNat (by omega)

/-- The range of the second of three bytes depends on the first: short forms and surrogates are left
out. -/
theorem tailRanges_three (hlo : 0x7ff < v) (hhi : v ≤ 0xffff)
    (hvalid : v < 0xd800 ∨ 0xdfff < v) :
    ∃ lo hi, lo ≤ v / 64 % 0x40 + 0x80 ∧ v / 64 % 0x40 + 0x80 ≤ hi ∧ hi < 256 ∧
      tailRanges (.ofNat (v / 4096 % 0x10 + 0xe0)) =
        some (v / 4096, [(.ofNat lo, .ofNat hi), anyTail]) := by
  rw [tailRanges_ofNat (by omega), if_neg (by omega), if_neg (by omega)]
  by_cases hfirst : v < 0x1000
  · refine ⟨0xa0, 0xbf, by omega, by omega, by omega, ?_⟩
    have hbits : v / 4096 = 0 := by omega
    rw [if_pos (by omega), hbits]
    rfl
  · rw [if_neg (by omega)]
    by_cases hsurrogate : 0xd000 ≤ v ∧ v < 0xd800
    · refine ⟨0x80, 0x9f, by omega, by omega, by omega, ?_⟩
      have hbits : v / 4096 = 0xd := by omega
      rw [if_pos (by omega), hbits]
      rfl
    · refine ⟨0x80, 0xbf, by omega, by omega, by omega, ?_⟩
      have hbits : v / 4096 % 0x10 + 0xe0 - 0xe0 = v / 4096 := by omega
      rw [if_neg (by omega), if_pos (by omega), hbits]
      rfl

/-- The same for four bytes; what is beyond the last character is left out. -/
theorem tailRanges_four (hlo : 0xffff < v) (hhi : v < 0x110000) :
    ∃ lo hi, lo ≤ v / 4096 % 0x40 + 0x80 ∧ v / 4096 % 0x40 + 0x80 ≤ hi ∧ hi < 256 ∧
      tailRanges (.ofNat (v / 262144 % 0x08 + 0xf0)) =
        some (v / 262144, [(.ofNat lo, .ofNat hi), anyTail, anyTail]) := by
  rw [tailRanges_ofNat (by omega), if_neg (by omega), if_neg (by omega), if_neg (by omega),
    if_neg (by omega), if_neg (by omega)]
  by_cases hfirst : v < 0x40000
  · refine ⟨0x90, 0xbf, by omega, by omega, by omega, ?_⟩
    have hbits : v / 262144 = 0 := by omega
    rw [if_pos (by omega), hbits]
    rfl
  · rw [if_neg (by omega)]
    by_cases hlast : v < 0x100000
    · refine ⟨0x80, 0xbf, by omega, by omega, by omega, ?_⟩
      have hbits : v / 262144 % 0x08 + 0xf0 - 0xf0 = v / 262144 := by omega
      rw [if_pos (by omega), hbits]
      rfl
    · refine ⟨0x80, 0x8f, by omega, by omega, by omega, ?_⟩
      have hbits : v / 262144 = 4 := by omega
      rw [if_neg (by omega), if_pos (by omega), hbits]
      rfl

theorem spells_three (hlo : 0x7ff < v) (hhi : v ≤ 0xffff) (hvalid : v < 0xd800 ∨ 0xdfff < v) :
    ∃ ranges, Spells (.ofNat (v / 4096 % 0x10 + 0xe0)) (v / 4096) ranges
      [.ofNat (v / 64 % 0x40 + 0x80), .ofNat (v % 0x40 + 0x80)] v := by
  obtain ⟨lo, hi, hle, hge, hmax, hranges⟩ := tailRanges_three hlo hhi hvalid
  refine ⟨_, not_ofNat_lt (by omega) (by omega), hranges, rfl, ?_, ?_, ?_⟩
  · rw [fitting_ofNat lo hi (by omega) hle hge hmax, fitting_anyTail (by omega)]
    rfl
  · have hvalue : (v / 4096 * 64 + v / 64 % 0x40) * 64 + v % 0x40 = v := by omega
    rw [List.foldl_cons, List.foldl_cons, List.foldl_nil, toNat_tail (by omega),
      toNat_tail (by omega), hvalue]
  · simp only [List.forall_mem_cons]
    exact ⟨isTail_ofNat (by omega), isTail_ofNat (by omega), List.forall_mem_nil _⟩

theorem spells_four (hlo : 0xffff < v) (hhi : v < 0x110000) :
    ∃ ranges, Spells (.ofNat (v / 262144 % 0x08 + 0xf0)) (v / 262144) ranges
      [.ofNat (v / 4096 % 0x40 + 0x80), .ofNat (v / 64 % 0x40 + 0x80), .ofNat (v % 0x40 + 0x80)]
      v := by
  obtain ⟨lo, hi, hle, hge, hmax, hranges⟩ := tailRanges_four hlo hhi
  refine ⟨_, not_ofNat_lt (by omega) (by omega), hranges, rfl, ?_, ?_, ?_⟩
  · rw [fitting_ofNat lo hi (by omega) hle hge hmax, fitting_anyTail (by omega),
      fitting_anyTail (by omega)]
    rfl
  · have hvalue :
        ((v / 262144 * 64 + v / 4096 % 0x40) * 64 + v / 64 % 0x40) * 64 + v % 0x40 = v := by
      omega
    rw [List.foldl_cons, List.foldl_cons, List.foldl_cons, List.foldl_nil, toNat_tail (by omega),
      toNat_tail (by omega), toNat_tail (by omega), hvalue]
  · simp only [List.forall_mem_cons]
    exact ⟨isTail_ofNat (by omega), isTail_ofNat (by omega), isTail_ofNat (by omega),
      List.forall_mem_nil _⟩

/-- A character is one plain byte, or a first byte with all that it asks for. -/
theorem utf8EncodeChar_cases (c : Char) :
    (∃ b, String.utf8EncodeChar c = [b] ∧ b < 0x80 ∧ b.toNat = c.toNat) ∨
      ∃ b bits ranges tail, String.utf8EncodeChar c = b :: tail ∧
        Spells b bits ranges tail c.toNat := by
  have hvalid : c.val.toNat < 0xd800 ∨ 0xdfff < c.val.toNat ∧ c.val.toNat < 0x110000 := c.valid
  have hc : c.toNat = c.val.toNat := rfl
  rw [hc, String.utf8EncodeChar]
  generalize c.val.toNat = v at hvalid
  split
  · refine .inl ⟨.ofNat v, rfl, ?_, ?_⟩
    · rw [UInt8.lt_iff_toNat_lt, toNat_ofNat (by omega)]
      exact Nat.lt_succ_of_le ‹_›
    · rw [toNat_ofNat (by omega)]
  · right
    split
    · exact ⟨_, _, _, _, rfl, spells_two (by omega) ‹_›⟩
    · split
      · obtain ⟨ranges, hspells⟩ := spells_three (v := v) (by omega) ‹_› (by omega)
        exact ⟨_, _, _, _, rfl, hspells⟩
      · obtain ⟨ranges, hspells⟩ := spells_four (v := v) (by omega) (by omega)
        exact ⟨_, _, _, _, rfl, hspells⟩

end Characters

theorem fitting_append {ranges : List (UInt8 × UInt8)} {bs : List UInt8}
    (h : fitting ranges bs = ranges.length) (rest : List UInt8) :
    fitting ranges (bs ++ rest) = ranges.length := by
  induction ranges generalizing bs with
  | nil => cases bs ++ rest <;> rfl
  | cons range ranges ih =>
      cases bs with
      | nil => cases h
      | cons b bs =>
          rw [fitting] at h
          rw [List.cons_append, fitting]
          split at h
          · rw [if_pos ‹_›, ih (Nat.succ.inj h)]
            rfl
          · cases h

theorem decodeStep_ascii (rest : List UInt8) {b : UInt8} (hb : b < 0x80) :
    decodeStep b rest = (Char.ofNat b.toNat, 0) := by
  rw [decodeStep, if_pos hb]

theorem Spells.decodeStep {b : UInt8} {bits v : Nat} {ranges : List (UInt8 × UInt8)}
    {tail : List UInt8} (h : Spells b bits ranges tail v) (rest : List UInt8) :
    decodeStep b (tail ++ rest) = (Char.ofNat v, tail.length) := by
  rw [Text.decodeStep, if_neg h.large, h.asks]
  dsimp only
  rw [if_pos (fitting_append h.fits rest), fitting_append h.fits rest, ← h.length_eq,
    List.take_left, h.value]

/-- A character is read back from its bytes, whatever follows. -/
theorem decodeChars_utf8EncodeChar (c : Char) (rest : List UInt8) :
    decodeChars (String.utf8EncodeChar c ++ rest) = c :: decodeChars rest := by
  rcases utf8EncodeChar_cases c with ⟨b, hc, hb, hchar⟩ | ⟨b, bits, ranges, tail, hc, hspells⟩
  · rw [hc, List.singleton_append, decodeChars, decodeStep_ascii rest hb, hchar, Char.ofNat_toNat,
      List.drop_zero]
  · rw [hc, List.cons_append, decodeChars, hspells.decodeStep, List.drop_left]
    congr 1
    exact Char.ofNat_toNat c

/-! ### Characters and their bytes -/

def encoded (w : List Char) : List UInt8 := w.flatMap String.utf8EncodeChar

theorem encoded_cons (c : Char) (w : List Char) :
    encoded (c :: w) = String.utf8EncodeChar c ++ encoded w :=
  List.flatMap_cons

@[simp] theorem encoded_append (v w : List Char) : encoded (v ++ w) = encoded v ++ encoded w :=
  List.flatMap_append

@[simp] theorem bytes_append (s t : String) : bytes (s ++ t) = bytes s ++ bytes t := by
  simp [bytes]

@[simp] theorem bytes_ofList (w : List Char) : bytes (String.ofList w) = encoded w := by
  rw [bytes, String.toByteArray_ofList, List.utf8Encode, encoded]
  simp

theorem bytes_eq_encoded (s : String) : bytes s = encoded s.toList := by
  rw [← bytes_ofList, String.ofList_toList]

theorem utf8ByteSize_ofList (w : List Char) :
    (String.ofList w).utf8ByteSize = (encoded w).length := by
  rw [← bytes_ofList]
  rfl

theorem utf8EncodeChar_ascii {c : Char} (hc : c.toNat < 128) :
    String.utf8EncodeChar c = [c.toUInt8] := by
  rw [String.utf8EncodeChar, if_pos (show c.val.toNat ≤ 0x7f from Nat.le_of_lt_succ hc)]
  rfl

theorem encoded_eq_map {w : List Char} (h : ∀ c ∈ w, c.toNat < 128) :
    encoded w = w.map Char.toUInt8 := by
  induction w with
  | nil => rfl
  | cons c w ih =>
      rw [List.forall_mem_cons] at h
      rw [encoded_cons, utf8EncodeChar_ascii h.1, ih h.2]
      rfl

theorem decodeChars_encoded_append (w : List Char) (rest : List UInt8) :
    decodeChars (encoded w ++ rest) = w ++ decodeChars rest := by
  induction w with
  | nil => rfl
  | cons c w ih =>
      rw [encoded_cons, List.append_assoc, decodeChars_utf8EncodeChar, ih]
      rfl

@[simp] theorem decodeChars_encoded (w : List Char) : decodeChars (encoded w) = w := by
  have hnil := decodeChars_encoded_append w []
  rwa [decodeChars, List.append_nil, List.append_nil] at hnil

/-- A text is read back from its bytes. -/
@[simp] theorem decode_bytes (s : String) : decode (bytes s) = s := by
  rw [decode, bytes_eq_encoded, decodeChars_encoded, String.ofList_toList]

theorem prefix_of_encoded {v w : List Char} (h : encoded v <+: encoded w) : v <+: w := by
  obtain ⟨rest, h⟩ := h
  refine ⟨decodeChars rest, ?_⟩
  rw [← decodeChars_encoded_append, h, decodeChars_encoded]

theorem toNat_eq_of_mem_utf8EncodeChar {c : Char} {b : UInt8} (hb : b ∈ String.utf8EncodeChar c)
    (hlt : b.toNat < 128) : c.toNat = b.toNat := by
  rcases utf8EncodeChar_cases c with ⟨b', hc, -, hchar⟩ | ⟨b', bits, ranges, tail, hc, hspells⟩
  · rw [hc, List.mem_singleton] at hb
    rw [hb, hchar]
  · rw [hc, List.mem_cons] at hb
    rcases hb with rfl | hb
    · exact absurd (UInt8.lt_iff_toNat_lt.2 hlt) hspells.large
    · exact absurd hlt (Nat.not_lt.2 (hspells.isTail b hb).1)

theorem head?_encoded {w : List Char} {b : UInt8} (hb : (encoded w).head? = some b)
    (hlt : b.toNat < 128) : ∃ c, w.head? = some c ∧ c.toNat = b.toNat := by
  cases w with
  | nil => contradiction
  | cons c w =>
      refine ⟨c, rfl, ?_⟩
      rw [encoded_cons, List.head?_append] at hb
      cases hhead : (String.utf8EncodeChar c).head? with
      | none =>
          rw [List.head?_eq_none_iff] at hhead
          exact absurd hhead String.utf8EncodeChar_ne_nil
      | some b' =>
          rw [hhead] at hb
          cases hb
          exact toNat_eq_of_mem_utf8EncodeChar (List.mem_of_head? hhead) hlt

/-- A byte below 128 stands between characters. -/
theorem exists_of_encoded_eq_append_cons {w : List Char} {u v : List UInt8} {b : UInt8}
    (hb : b.toNat < 128) (h : encoded w = u ++ b :: v) :
    ∃ w₁ c w₂, w = w₁ ++ c :: w₂ ∧ encoded w₁ = u ∧ c.toNat = b.toNat ∧ encoded w₂ = v := by
  induction w generalizing u with
  | nil => simp [encoded] at h
  | cons c w ih =>
      rw [encoded_cons] at h
      rcases List.append_eq_append_iff.1 h with ⟨u', rfl, hu'⟩ | ⟨x, hx, hrest⟩
      · obtain ⟨w₁, c', w₂, rfl, rfl, hc', hv⟩ := ih hu'
        exact ⟨c :: w₁, c', w₂, rfl, rfl, hc', hv⟩
      · cases x with
        | nil =>
            obtain ⟨w₁, c', w₂, rfl, hw₁, hc', hv⟩ := ih (u := []) hrest.symm
            refine ⟨c :: w₁, c', w₂, rfl, ?_, hc', hv⟩
            rw [encoded_cons, hw₁, hx, List.append_nil, List.append_nil]
        | cons b' x =>
            rw [List.cons_append, List.cons.injEq] at hrest
            obtain ⟨rfl, rfl⟩ := hrest
            have hc := toNat_eq_of_mem_utf8EncodeChar
              (hx ▸ List.mem_append_right u List.mem_cons_self) hb
            rw [utf8EncodeChar_ascii (hc ▸ hb), eq_comm, List.append_eq_singleton_iff] at hx
            rcases hx with ⟨rfl, hx⟩ | ⟨-, hx⟩
            · obtain rfl := (List.cons.inj hx).2
              exact ⟨[], c, w, rfl, rfl, hc, rfl⟩
            · contradiction

/-- What stands before plain bytes at the end of a text is a text. -/
theorem exists_encoded_of_append {w : List Char} {u v : List UInt8} (hv : ∀ b ∈ v, b.toNat < 128)
    (h : encoded w = u ++ v) : ∃ w', encoded w' = u := by
  cases v with
  | nil => exact ⟨w, by rw [h, List.append_nil]⟩
  | cons b v =>
      obtain ⟨w₁, -, -, -, hw₁, -, -⟩ :=
        exists_of_encoded_eq_append_cons (hv b List.mem_cons_self) h
      exact ⟨w₁, hw₁⟩

/-! ### Plain text -/

theorem toNat_of_mem_toDigits {n : Nat} {c : Char} (hc : c ∈ Nat.toDigits 10 n) :
    48 ≤ c.toNat ∧ c.toNat ≤ 57 := by
  have hdigit : (c.val ≥ 48 && c.val ≤ 57) = true :=
    Nat.isDigit_of_mem_toDigits (by decide) (by decide) hc
  simpa [UInt32.le_iff_toNat_le] using hdigit

theorem bytes_replicate {c : Char} (hc : c.toNat < 128) (n : Nat) :
    bytes (String.ofList (List.replicate n c)) = List.replicate n c.toUInt8 := by
  have hplain : ∀ c' ∈ List.replicate n c, c'.toNat < 128 := fun c' hc' => by
    rw [List.eq_of_mem_replicate hc']
    exact hc
  rw [bytes_ofList, encoded_eq_map hplain, List.map_replicate]

/-- Every byte is a character of its own. -/
def IsAscii (bs : List UInt8) : Prop := ∀ b ∈ bs, b < 0x80

theorem decodeChars_of_isAscii {bs : List UInt8} (h : IsAscii bs) :
    decodeChars bs = bs.map fun b => Char.ofNat b.toNat := by
  induction bs with
  | nil => rw [decodeChars, List.map_nil]
  | cons b bs ih =>
      obtain ⟨hb, hbs⟩ := List.forall_mem_cons.1 h
      rw [decodeChars, decodeStep_ascii bs hb, List.drop_zero, ih hbs, List.map_cons]

theorem decode_append {bs bs' : List UInt8} (h : IsAscii bs) (h' : IsAscii bs') :
    decode (bs ++ bs') = decode bs ++ decode bs' := by
  have happ : IsAscii (bs ++ bs') := fun b hb => (List.mem_append.1 hb).elim (h b) (h' b)
  rw [decode, decode, decode, decodeChars_of_isAscii happ, decodeChars_of_isAscii h,
    decodeChars_of_isAscii h', List.map_append, String.ofList_append]

end Seedling.Text
