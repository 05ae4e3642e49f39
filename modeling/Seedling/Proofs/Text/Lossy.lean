import Seedling.Proofs.Text.Utf8

/-!
Pieces of a text that are cut out byte by byte. A character of which only a part is inside the
piece is read as replacement characters, which are three bytes long each: one for a part that
was cut off at its end, one for every byte of a part that was cut off at its beginning. So a
piece never gets shorter when it is read, and it keeps its length only if it begins between
characters and ends between characters or after three of the four bytes of one.
-/

namespace Seedling.Text

/-! ### Parts of characters -/

theorem decodeChars_of_isTail {bs : List UInt8} (h : ∀ b ∈ bs, IsTail b) (rest : List UInt8) :
    decodeChars (bs ++ rest) = List.replicate bs.length replacement ++ decodeChars rest := by
  induction bs with
  | nil => rfl
  | cons b bs ih =>
      obtain ⟨⟨hlo, hhi⟩, hbs⟩ := List.forall_mem_cons.1 h
      have hlarge : ¬ b < 0x80 := by
        rw [UInt8.lt_iff_toNat_lt]
        exact Nat.not_lt.2 hlo
      have hnone : tailRanges b = none := by
        have hb : b = .ofNat b.toNat := (UInt8.ofNat_toNat).symm
        rw [hb, tailRanges_ofNat b.toNat_lt, if_pos (by omega)]
      have hstep : decodeStep b (bs ++ rest) = (replacement, 0) := by
        rw [decodeStep, if_neg hlarge, hnone]
      rw [List.cons_append, decodeChars, hstep, List.drop_zero, ih hbs]
      rfl

theorem fitting_take {ranges : List (UInt8 × UInt8)} {bs : List UInt8}
    (h : fitting ranges bs = ranges.length) {k : Nat} (hk : k ≤ ranges.length) :
    fitting ranges (bs.take k) = k := by
  induction ranges generalizing bs k with
  | nil =>
      obtain rfl : k = 0 := Nat.le_zero.1 hk
      rfl
  | cons range ranges ih =>
      cases bs with
      | nil => cases h
      | cons b bs =>
          cases k with
          | zero => rfl
          | succ k =>
              rw [fitting] at h
              rw [List.take_succ_cons, fitting]
              split at h
              · rw [if_pos ‹_›, ih (Nat.succ.inj h) (Nat.le_of_succ_le_succ hk)]
              · cases h

/-- A character that is cut off is read as one replacement character. -/
theorem decodeChars_take_utf8EncodeChar {c : Char} {k : Nat} (hpos : 0 < k)
    (hk : k < (String.utf8EncodeChar c).length) :
    decodeChars ((String.utf8EncodeChar c).take k) = [replacement] := by
  rcases utf8EncodeChar_cases c with ⟨b, hc, -, -⟩ | ⟨b, bits, ranges, tail, hc, hspells⟩
  · rw [hc, List.length_singleton] at hk
    omega
  · obtain ⟨k, rfl⟩ := Nat.exists_eq_succ_of_ne_zero (Nat.pos_iff_ne_zero.1 hpos)
    rw [hc, List.length_cons] at hk
    have hlt : k < ranges.length := by
      rw [← hspells.length_eq]
      exact Nat.lt_of_succ_lt_succ hk
    have hfit := fitting_take hspells.fits (Nat.le_of_lt hlt)
    have hstep : decodeStep b (tail.take k) = (replacement, k) := by
      rw [decodeStep, if_neg hspells.large, hspells.asks]
      dsimp only
      rw [hfit, if_neg (Nat.ne_of_lt hlt)]
    have hrest : (tail.take k).drop k = [] := List.drop_eq_nil_of_le (List.length_take_le k tail)
    rw [hc, List.take_succ_cons, decodeChars, hstep, hrest, decodeChars]

theorem isTail_of_mem_drop {c : Char} {k : Nat} (hpos : 0 < k) {b : UInt8}
    (hb : b ∈ (String.utf8EncodeChar c).drop k) : IsTail b := by
  obtain ⟨k, rfl⟩ := Nat.exists_eq_succ_of_ne_zero (Nat.pos_iff_ne_zero.1 hpos)
  rcases utf8EncodeChar_cases c with ⟨b', hc, -, -⟩ | ⟨b', bits, ranges, tail, hc, hspells⟩
  · rw [hc, List.drop_succ_cons, List.drop_nil] at hb
    contradiction
  · rw [hc, List.drop_succ_cons] at hb
    exact hspells.isTail b (List.mem_of_mem_drop hb)

/-! ### Places in a text -/

/-- A place between two characters, or at either end. -/
def Between (w : List Char) (p : Nat) : Prop := ∃ v u, w = v ++ u ∧ (encoded v).length = p

/-- A place before the last byte of a character that has four. -/
def BeforeFourth (w : List Char) (p : Nat) : Prop :=
  ∃ v c u, w = v ++ c :: u ∧ (String.utf8EncodeChar c).length = 4 ∧ (encoded v).length + 3 = p

theorem between_iff_isValid (text : String) (p : Nat) :
    Between text.toList p ↔ String.Pos.Raw.IsValid text ⟨p⟩ := by
  rw [String.Pos.Raw.isValid_iff_exists_append]
  constructor
  · rintro ⟨v, u, h, rfl⟩
    refine ⟨.ofList v, .ofList u, ?_, ?_⟩
    · rw [← String.ofList_append, ← h, String.ofList_toList]
    · rw [← bytes_ofList]
      rfl
  · rintro ⟨s, t, rfl, h⟩
    refine ⟨s.toList, t.toList, String.toList_append, ?_⟩
    rw [← bytes_ofList, String.ofList_toList]
    exact (congrArg String.Pos.Raw.byteIdx h).symm

theorem between_or_inside (w : List Char) {p : Nat} (hp : p ≤ (encoded w).length) :
    Between w p ∨ ∃ v c u k, w = v ++ c :: u ∧ (encoded v).length + k = p ∧ 0 < k ∧
      k < (String.utf8EncodeChar c).length := by
  induction w generalizing p with
  | nil => exact .inl ⟨[], [], rfl, (Nat.le_zero.1 hp).symm⟩
  | cons c w ih =>
      rw [encoded_cons, List.length_append] at hp
      by_cases hzero : p = 0
      · exact .inl ⟨[], c :: w, rfl, hzero.symm⟩
      by_cases hlt : p < (String.utf8EncodeChar c).length
      · exact .inr ⟨[], c, w, p, rfl, Nat.zero_add p, Nat.pos_of_ne_zero hzero, hlt⟩
      · rcases ih (p := p - (String.utf8EncodeChar c).length) (by omega) with
          ⟨v, u, rfl, hv⟩ | ⟨v, c', u, k, rfl, hv, hk⟩
        · refine .inl ⟨c :: v, u, rfl, ?_⟩
          rw [encoded_cons, List.length_append]
          omega
        · refine .inr ⟨c :: v, c', u, k, rfl, ?_, hk⟩
          rw [encoded_cons, List.length_append]
          omega

/-- What goes beyond the beginning of a character has it as a whole. -/
theorem length_add_le_of_lt {v v' u u' : List Char} {c : Char} (h : v ++ c :: u = v' ++ u')
    (hlt : (encoded v).length < (encoded v').length) :
    (encoded v).length + (String.utf8EncodeChar c).length ≤ (encoded v').length := by
  rcases List.append_eq_append_iff.1 h with ⟨x, rfl, hx⟩ | ⟨x, rfl, -⟩
  · cases x with
    | nil =>
        rw [List.append_nil] at hlt
        omega
    | cons c' x =>
        obtain rfl : c = c' := (List.cons.inj hx).1
        rw [encoded_append, encoded_cons, List.length_append, List.length_append]
        omega
  · rw [encoded_append, List.length_append] at hlt
    omega

section Inside

variable {v u : List Char} {c : Char} {k : Nat} (hpos : 0 < k)
  (hk : k < (String.utf8EncodeChar c).length)
include hpos hk

theorem not_between_inside : ¬ Between (v ++ c :: u) ((encoded v).length + k) := by
  rintro ⟨v', u', h, hv'⟩
  have hle := length_add_le_of_lt h (by omega)
  omega

theorem beforeFourth_inside_iff :
    BeforeFourth (v ++ c :: u) ((encoded v).length + k) ↔ k = 3 := by
  constructor
  · rintro ⟨v', c', u', h, hc', hv'⟩
    rcases Nat.lt_trichotomy (encoded v).length (encoded v').length with hlt | heq | hlt
    · have hle := length_add_le_of_lt h hlt
      omega
    · omega
    · have hle := length_add_le_of_lt h.symm hlt
      omega
  · rintro rfl
    refine ⟨v, c, u, rfl, ?_, rfl⟩
    have hle := Char.utf8Size_le_four c
    rw [String.length_utf8EncodeChar] at hk ⊢
    omega

end Inside

/-! ### Pieces of a text -/

/-- What a piece of a text consists of: the rest of a character, whole characters, and the
beginning of one. -/
structure Parts (w : List Char) (p stop : Nat) (tails : List UInt8) (u : List Char)
    (beginning : List UInt8) : Prop where
  drop_eq : ((encoded w).take stop).drop p = tails ++ encoded u ++ beginning
  isTail : ∀ b ∈ tails, IsTail b
  cutOff : beginning = [] ∨ ∃ c k, 0 < k ∧ k < (String.utf8EncodeChar c).length ∧
    beginning = (String.utf8EncodeChar c).take k
  starts : tails = [] ↔ Between w p
  ends : tails = [] → (beginning = [] ∨ beginning.length = 3 ↔ Between w stop ∨ BeforeFourth w stop)

theorem take_inside (v : List Char) {c : Char} (u : List Char) {k : Nat}
    (hk : k < (String.utf8EncodeChar c).length) :
    (encoded (v ++ c :: u)).take ((encoded v).length + k) =
      encoded v ++ (String.utf8EncodeChar c).take k := by
  rw [encoded_append, encoded_cons, List.take_length_add_append,
    List.take_append_of_le_length (Nat.le_of_lt hk)]

theorem drop_inside (v : List Char) {c : Char} (u : List Char) {k : Nat}
    (hk : k < (String.utf8EncodeChar c).length) :
    (encoded (v ++ c :: u)).drop ((encoded v).length + k) =
      (String.utf8EncodeChar c).drop k ++ encoded u := by
  rw [encoded_append, encoded_cons, List.drop_length_add_append,
    List.drop_append_of_le_length (Nat.le_of_lt hk)]

theorem exists_drop_eq (v z : List Char) {p : Nat} (hp : p ≤ (encoded v).length) :
    ∃ tails u, (encoded v).drop p = tails ++ encoded u ∧ (∀ b ∈ tails, IsTail b) ∧
      (tails = [] ↔ Between (v ++ z) p) := by
  rcases between_or_inside v hp with ⟨v, u, rfl, rfl⟩ | ⟨v, c, u, k, rfl, rfl, hpos, hk⟩
  · refine ⟨[], u, ?_, List.forall_mem_nil _, iff_of_true rfl ⟨v, u ++ z, ?_, rfl⟩⟩
    · rw [encoded_append, List.drop_left, List.nil_append]
    · rw [List.append_assoc]
  · refine ⟨_, u, drop_inside v u hk, fun b => isTail_of_mem_drop hpos, iff_of_false ?_ ?_⟩
    · rw [List.drop_eq_nil_iff]
      exact Nat.not_le.2 hk
    · rw [List.append_assoc, List.cons_append]
      exact not_between_inside hpos hk

theorem exists_parts (w : List Char) {p stop : Nat} (hlt : p < stop)
    (hstop : stop ≤ (encoded w).length) :
    ∃ tails u beginning, Parts w p stop tails u beginning := by
  rcases between_or_inside w hstop with ⟨v, u, rfl, rfl⟩ | ⟨v, c, u, k, rfl, rfl, hpos, hk⟩
  · obtain ⟨tails, u', hdrop, htails, hstarts⟩ := exists_drop_eq v u (Nat.le_of_lt hlt)
    refine ⟨tails, u', [], ?_, htails, .inl rfl, hstarts, fun _ => ?_⟩
    · rw [encoded_append, List.take_left, hdrop, List.append_nil]
    · exact iff_of_true (.inl rfl) (.inl ⟨v, u, rfl, rfl⟩)
  · by_cases hp : p ≤ (encoded v).length
    · obtain ⟨tails, u', hdrop, htails, hstarts⟩ := exists_drop_eq v (c :: u) hp
      refine ⟨tails, u', _, ?_, htails, .inr ⟨c, k, hpos, hk, rfl⟩, hstarts, fun _ => ?_⟩
      · rw [take_inside v u hk, List.drop_append_of_le_length hp, hdrop]
      · have hlength : ((String.utf8EncodeChar c).take k).length = k := by
          rw [List.length_take]
          omega
        rw [or_iff_right (not_between_inside hpos hk), beforeFourth_inside_iff hpos hk, hlength,
          or_iff_right]
        intro hnil
        rw [hnil, List.length_nil] at hlength
        omega
    · -- Both ends lie inside of one character.
      obtain ⟨j, rfl⟩ := Nat.exists_eq_add_of_le (Nat.le_of_not_le hp)
      have hdrop : ((String.utf8EncodeChar c).take k).drop j ≠ [] := by
        rw [Ne, List.drop_eq_nil_iff, List.length_take]
        omega
      refine ⟨((String.utf8EncodeChar c).take k).drop j, [], [], ?_, fun b hb => ?_, .inl rfl,
        iff_of_false hdrop (not_between_inside (by omega) (by omega)), fun h => absurd h hdrop⟩
      · rw [take_inside v u hk, List.drop_length_add_append]
        simp [encoded]
      · rw [List.drop_take] at hb
        exact isTail_of_mem_drop (by omega) (List.mem_of_mem_take hb)

theorem Parts.length_decoded {w : List Char} {p stop : Nat} {tails : List UInt8} {u : List Char}
    {beginning : List UInt8} (h : Parts w p stop tails u beginning) :
    (encoded (decodeChars (((encoded w).take stop).drop p))).length =
      3 * tails.length + (encoded u).length + if beginning = [] then 0 else 3 := by
  have hreplacement : ∀ n, (encoded (List.replicate n replacement)).length = 3 * n := by
    intro n
    induction n with
    | zero => rfl
    | succ n ih =>
        have hone : (String.utf8EncodeChar replacement).length = 3 := by decide
        rw [List.replicate_succ, encoded_cons, List.length_append, ih, hone]
        omega
  rw [h.drop_eq, List.append_assoc, decodeChars_of_isTail h.isTail, decodeChars_encoded_append,
    encoded_append, encoded_append, List.length_append, List.length_append, hreplacement,
    Nat.add_assoc]
  rcases h.cutOff with rfl | ⟨c, k, hpos, hk, rfl⟩
  · rw [if_pos rfl, decodeChars]
    rfl
  · have hne : (String.utf8EncodeChar c).take k ≠ [] := by
      rw [Ne, List.take_eq_nil_iff]
      rintro (rfl | hnil)
      · exact Nat.lt_irrefl 0 hpos
      · rw [hnil] at hk
        exact Nat.not_lt_zero k hk
    rw [if_neg hne, decodeChars_take_utf8EncodeChar hpos hk]
    have hone := hreplacement 1
    rw [List.replicate_one] at hone
    rw [hone]

/-- A piece does not get shorter when it is read, and it keeps its length just if it begins between
characters, and ends between characters or before the last byte of four. -/
theorem length_decoded_piece (w : List Char) {p stop : Nat} (hlt : p < stop)
    (hstop : stop ≤ (encoded w).length) :
    stop - p ≤ (encoded (decodeChars (((encoded w).take stop).drop p))).length ∧
      ((encoded (decodeChars (((encoded w).take stop).drop p))).length = stop - p ↔
        Between w p ∧ (Between w stop ∨ BeforeFourth w stop)) := by
  obtain ⟨tails, u, beginning, h⟩ := exists_parts w hlt hstop
  have hlength := congrArg List.length h.drop_eq
  rw [List.length_drop, List.length_take, Nat.min_eq_left hstop, List.length_append,
    List.length_append] at hlength
  have hshort : beginning.length ≤ 3 := by
    rcases h.cutOff with rfl | ⟨c, k, -, hk, rfl⟩
    · exact Nat.zero_le 3
    · have hfour := Char.utf8Size_le_four c
      rw [String.length_utf8EncodeChar] at hk
      rw [List.length_take]
      omega
  have htails : tails = [] ↔ tails.length = 0 := List.length_eq_zero_iff.symm
  rw [h.length_decoded, ← h.starts, ← and_congr_right h.ends, htails]
  by_cases hnil : beginning = []
  · rw [hnil, List.length_nil] at hlength
    rw [if_pos hnil, and_iff_left (Or.inl hnil)]
    omega
  · have hpos := List.length_pos_iff.2 hnil
    rw [if_neg hnil, or_iff_right hnil]
    omega

end Seedling.Text
