import Seedling.Proofs.Ebnf.Writing
import Seedling.Proofs.Parse.Phrases
import Seedling.Proofs.Regex.Combinators

/-!
The words of grammar text: signs, identifiers, literals, patterns and blanks. For each there is
the expression that its pattern denotes; a word that is written is the longest one where it
stands, as long as what follows does not go on with it, and no word stands where another
character is.
-/

namespace Seedling.Ebnf

open Regex Text

theorem of_contains {cs : List Char} {p : Char → Bool} (h : cs.all p = true) :
    ∀ c, cs.contains c = true → p c = true :=
  fun c hc => List.all_eq_true.1 h c (List.contains_iff_mem.1 hc)

theorem apart_symm {p q : Char → Bool} (h : ∀ c, p c = true → (!q c) = true) :
    ∀ c, q c = true → (!p c) = true := by
  intro c hq
  rw [Bool.not_eq_true', Bool.eq_false_iff]
  intro hp
  have hnot := h c hp
  rw [hq] at hnot
  contradiction

theorem toNat_lt_of_contains {cs : List Char} {c : Char} (hc : cs.contains c = true)
    (h : (cs.all fun c => decide (c.toNat < 128)) = true) : c.toNat < 128 :=
  of_decide_eq_true (List.all_eq_true.1 h c (List.contains_iff_mem.1 hc))

/-! ### What comes next -/

/-- The text is at its end or goes on with such a character. -/
def Ahead (p : Char → Bool) (rest : List Char) : Prop := ∀ c, rest.head? = some c → p c = true

theorem Ahead.cons {p : Char → Bool} {c : Char} {rest : List Char} (h : p c = true) :
    Ahead p (c :: rest) := by
  intro c' hc'
  cases hc'
  exact h

theorem Ahead.imp {p q : Char → Bool} {rest : List Char} (h : Ahead p rest)
    (hpq : ∀ c, p c = true → q c = true) : Ahead q rest :=
  fun c hc => hpq c (h c hc)

theorem Ahead.append {p : Char → Bool} {w rest : List Char} (hw : Ahead p w)
    (hrest : Ahead p rest) : Ahead p (w ++ rest) := by
  cases w with
  | nil => exact hrest
  | cons c w => exact .cons (hw c rfl)

theorem Ahead.of_ne_nil {p : Char → Bool} {w : List Char} (hw : Ahead p w) (hne : w ≠ [])
    (rest : List Char) : Ahead p (w ++ rest) := by
  cases w with
  | nil => contradiction
  | cons c w => exact .cons (hw c rfl)

theorem Ahead.flatMap {α : Type} {p : Char → Bool} {word : α → List Char} {xs : List α}
    (h : ∀ x ∈ xs, Ahead p (word x)) : Ahead p (xs.flatMap word) := by
  induction xs with
  | nil => exact fun c hc => by contradiction
  | cons x xs ih =>
      rw [List.forall_mem_cons] at h
      exact .append h.1 (ih h.2)

theorem Layout.ahead_gap (layout : Layout) (rest : List Char) :
    Ahead isBlank (layout.gap ++ rest) :=
  .of_ne_nil (fun c hc => layout.gap_blank c (List.mem_of_mem_head? hc)) layout.gap_ne rest

theorem Layout.ahead_margin (layout : Layout) : Ahead isBlank layout.margin :=
  fun c hc => layout.margin_blank c (List.mem_of_mem_head? hc)

theorem Ahead.byte {p : Char → Bool} {rest : List Char} (h : Ahead p rest) {b : UInt8}
    {u : List UInt8}
    (hu : b :: u <+: encoded rest) (hb : b.toNat < 128) : ∃ c, c.toNat = b.toNat ∧ p c = true := by
  obtain ⟨v, hv⟩ := hu
  obtain ⟨c, hc, heq⟩ := head?_encoded (show (encoded rest).head? = some b by rw [← hv]; rfl) hb
  exact ⟨c, heq, h c hc⟩

/-! ### Sets of bytes -/

def byteOf (p : Char → Bool) (b : UInt8) : Prop := b.toNat < 128 ∧ p (Char.ofNat b.toNat) = true

theorem byteOf_toUInt8 {p : Char → Bool} {c : Char} (hlt : c.toNat < 128) (hc : p c = true) :
    byteOf p c.toUInt8 := by
  have htoNat : c.toUInt8.toNat = c.toNat := by
    rw [Char.toUInt8, UInt32.toNat_toUInt8]
    exact Nat.mod_eq_of_lt (Nat.lt_trans hlt (by decide))
  rw [byteOf, htoNat, Char.ofNat_toNat]
  exact ⟨hlt, hc⟩

theorem Ahead.not_byteOf {p : Char → Bool} {rest : List Char} (h : Ahead (fun c => !p c) rest)
    {b : UInt8} {u : List UInt8} (hu : b :: u <+: encoded rest) : ¬ byteOf p b := by
  rintro ⟨hlt, hp⟩
  obtain ⟨c, hc, hnot⟩ := h.byte hu hlt
  rw [← hc, Char.ofNat_toNat] at hp
  rw [hp] at hnot
  contradiction

/-! ### Expressions -/

def prefixRegex : Regex := .or (.range 33 33) (.range 38 38)

def suffixRegex : Regex := .or (.range 42 43) (.range 63 63)

def nameStartRegex : Regex := .or (.range 65 90) (.or (.range 95 95) (.range 97 122))

def nameCharRegex : Regex := .or (.range 48 57) nameStartRegex

def nameRegex : Regex := .concat nameStartRegex (.star nameCharRegex)

/-- A byte that is neither the quote nor a backslash. -/
def plainRegex (quote : UInt8) : Regex :=
  .or (.range 0 (quote - 1)) (.or (.range (quote + 1) 91) (.range 93 255))

def unitRegex (quote : UInt8) : Regex :=
  .or (plainRegex quote) (.concat (.literal [92]) (.range 0 255))

def quotationRegex (quote : UInt8) : Regex :=
  .concat (.concat (.literal [quote]) (.star (unitRegex quote))) (.literal [quote])

def literalRegex : Regex := .or (quotationRegex 39) (quotationRegex 34)

def unfencedRegex : Regex := .or (.range 0 95) (.range 97 255)

def fenceRegex : Regex := .concat (.concat (.literal [96]) (.star unfencedRegex)) (.literal [96])

def blankCharRegex : Regex := .or (.range 9 10) (.or (.range 13 13) (.range 32 32))

def commentRegex : Regex := .concat (.literal [35]) (.star (.or (.range 0 9) (.range 11 255)))

def blankRegex : Regex := .star (.or blankCharRegex commentRegex)

set_option maxRecDepth 4000 in
theorem parse_prefixSign : Regex.parse "[!&]" = .ok prefixRegex := by
  with_unfolding_all rfl

set_option maxRecDepth 4000 in
theorem parse_suffixSign : Regex.parse "[*+?]" = .ok suffixRegex := by
  with_unfolding_all rfl

set_option maxRecDepth 4000 in
theorem parse_name : Regex.parse "[A-Za-z_][A-Za-z0-9_]*" = .ok nameRegex := by
  with_unfolding_all rfl

set_option maxRecDepth 4000 in
theorem parse_literal :
    Regex.parse "'([^'\\\\]|\\\\.)*'|\"([^\"\\\\]|\\\\.)*\"" = .ok literalRegex := by
  with_unfolding_all rfl

set_option maxRecDepth 4000 in
theorem parse_fence : Regex.parse "`[^`]*`" = .ok fenceRegex := by
  with_unfolding_all rfl

set_option maxRecDepth 4000 in
theorem parse_blank : Regex.parse "([ \\t\\r\\n]|#[^\\n]*)*" = .ok blankRegex := by
  with_unfolding_all rfl

/-! ### Signs and identifiers -/

def isPrefix (c : Char) : Bool := ['!', '&'].contains c

def isSuffix (c : Char) : Bool := ['*', '+', '?'].contains c

theorem singletons_eq_byteOf {s : UInt8 → Prop} {p : Char → Bool} {t : Nat → Prop}
    (hs : ∀ b : UInt8, s b ↔ t b.toNat)
    (ht : ∀ n < 256, t n ↔ n < 128 ∧ p (Char.ofNat n) = true) :
    singletons s = singletons (byteOf p) := by
  congr 1
  funext b
  exact propext ((hs b).trans (ht b.toNat b.toNat_lt))

theorem language_prefixSign : prefixRegex.language = singletons (byteOf isPrefix) := by
  rw [prefixRegex, language_or, language_range, language_range, singletons_add]
  refine singletons_eq_byteOf (t := fun n => 33 ≤ n ∧ n ≤ 33 ∨ 38 ≤ n ∧ n ≤ 38)
    (fun b => ?_) (by decide +kernel)
  simp [UInt8.le_iff_toNat_le]

theorem language_suffixSign : suffixRegex.language = singletons (byteOf isSuffix) := by
  rw [suffixRegex, language_or, language_range, language_range, singletons_add]
  refine singletons_eq_byteOf (t := fun n => 42 ≤ n ∧ n ≤ 43 ∨ 63 ≤ n ∧ n ≤ 63)
    (fun b => ?_) (by decide +kernel)
  simp [UInt8.le_iff_toNat_le]

theorem language_nameStart : nameStartRegex.language = singletons (byteOf isNameStart) := by
  rw [nameStartRegex, language_or, language_or, language_range, language_range, language_range,
    singletons_add, singletons_add]
  refine singletons_eq_byteOf (t := fun n => 65 ≤ n ∧ n ≤ 90 ∨ 95 ≤ n ∧ n ≤ 95 ∨ 97 ≤ n ∧ n ≤ 122)
    (fun b => ?_) (by decide +kernel)
  simp [UInt8.le_iff_toNat_le]

theorem language_nameChar : nameCharRegex.language = singletons (byteOf isNameChar) := by
  rw [nameCharRegex, language_or, language_nameStart, language_range, singletons_add]
  refine singletons_eq_byteOf (t := fun n => 48 ≤ n ∧ n ≤ 57 ∨ n < 128 ∧
    isNameStart (Char.ofNat n) = true)
    (fun b => ?_) (by decide +kernel)
  simp [UInt8.le_iff_toNat_le, byteOf]

theorem language_name : nameRegex.language =
    singletons (byteOf isNameStart) * KStar.kstar (singletons (byteOf isNameChar)) := by
  rw [← language_nameStart, ← language_nameChar]
  rfl

theorem longest_of_singletons {r : Regex} {p : Char → Bool}
    (hr : r.language = singletons (byteOf p)) {c : Char}
    (hlt : c.toNat < 128) (hc : p c = true) (rest : List UInt8) : r.Longest (encoded [c]) rest := by
  rw [Longest, hr, encoded, List.flatMap_singleton, utf8EncodeChar_ascii hlt]
  refine ⟨⟨_, byteOf_toUInt8 hlt hc, rfl⟩, fun u _ hu => ?_⟩
  obtain ⟨b, -, hb⟩ := hu
  rw [List.singleton_append, List.cons.injEq] at hb
  exact hb.2

theorem toNat_lt_of_isNameChar {c : Char} (h : isNameChar c = true) : c.toNat < 128 := by
  have hbound : ∀ {hi : UInt32}, c.val ≤ hi → hi.toNat < 128 → c.toNat < 128 := fun hle hhi =>
    Nat.lt_of_le_of_lt (UInt32.le_iff_toNat_le.1 hle) hhi
  rw [isNameChar, Bool.or_eq_true, decide_eq_true_eq] at h
  rcases h with h | rfl
  · have hclass : ((c.isUpper || c.isLower) || c.isDigit) = true := h
    rw [Bool.or_eq_true, Bool.or_eq_true] at hclass
    rcases hclass with (hupper | hlower) | hdigit
    · have hrange : 'A'.val ≤ c.val ∧ c.val ≤ 'Z'.val := of_decide_eq_true hupper
      exact hbound hrange.2 (by decide)
    · have hrange : (decide ('a'.val ≤ c.val) && decide (c.val ≤ 'z'.val)) = true := hlower
      exact hbound (of_decide_eq_true (Bool.and_eq_true_iff.1 hrange).2) (by decide)
    · have hrange : (decide ('0'.val ≤ c.val) && decide (c.val ≤ '9'.val)) = true := hdigit
      exact hbound (of_decide_eq_true (Bool.and_eq_true_iff.1 hrange).2) (by decide)
  · decide

theorem isNameChar_of_isNameStart {c : Char} (h : isNameStart c = true) : isNameChar c = true := by
  rw [isNameStart, Bool.or_eq_true] at h
  rw [isNameChar, Bool.or_eq_true]
  exact h.imp_left fun halpha => Bool.or_eq_true_iff.2 (.inl halpha)

/-- An identifier ends where no character of a name follows. -/
theorem longest_name {name : String} (hname : isIdentifier name = true) {rest : List Char}
    (hrest : Ahead (fun c => !isNameChar c) rest) :
    nameRegex.Longest (encoded name.toList) (encoded rest) := by
  rw [isIdentifier, Bool.and_eq_true] at hname
  obtain ⟨hfirst, hothers⟩ := hname
  cases hchars : name.toList with
  | nil =>
      rw [hchars] at hfirst
      contradiction
  | cons c cs =>
      rw [hchars] at hfirst hothers
      have hc : isNameStart c = true := hfirst
      have hcs : ∀ c ∈ cs, isNameChar c = true := List.all_eq_true.1 hothers
      have hascii : ∀ c' ∈ c :: cs, c'.toNat < 128 := by
        rw [List.forall_mem_cons]
        exact ⟨toNat_lt_of_isNameChar (isNameChar_of_isNameStart hc), fun c' hc' =>
          toNat_lt_of_isNameChar (hcs c' hc')⟩
      rw [Longest, language_name, encoded_eq_map hascii, List.map_cons]
      rw [List.forall_mem_cons] at hascii
      refine ⟨mem_singletons_mul.2 ⟨_, _, byteOf_toUInt8 hascii.1 hc,
        mem_kstar_singletons.2 fun b hb => ?_, rfl⟩, fun u hu hmem => ?_⟩
      · obtain ⟨c', hc', rfl⟩ := List.mem_map.1 hb
        exact byteOf_toUInt8 (hascii.2 c' hc') (hcs c' hc')
      · obtain ⟨b, v, -, hv, heq⟩ := mem_singletons_mul.1 hmem
        rw [List.cons_append, List.cons.injEq] at heq
        rw [← heq.2, mem_kstar_singletons] at hv
        cases u with
        | nil => rfl
        | cons b u => exact absurd (hv b (by simp)) (hrest.not_byteOf hu)

/-- All words of the expression begin with such a character. -/
def OpensWith (r : Regex) (p : Char → Bool) : Prop :=
  ∀ w ∈ r.language, ∃ b v, byteOf p b ∧ w = b :: v

theorem OpensWith.not_mem {r : Regex} {p : Char → Bool} (h : OpensWith r p) {rest : List Char}
    (hrest : Ahead (fun c => !p c) rest) : ∀ u, u <+: encoded rest → u ∉ r.language := by
  intro u hu hmem
  obtain ⟨b, v, hb, rfl⟩ := h u hmem
  exact hrest.not_byteOf hu hb

theorem opensWith_of_singletons {r : Regex} {p : Char → Bool}
    (hr : r.language = singletons (byteOf p)) : OpensWith r p := by
  intro w hw
  rw [hr] at hw
  obtain ⟨b, hb, rfl⟩ := hw
  exact ⟨b, [], hb, rfl⟩

theorem opensWith_name : OpensWith nameRegex isNameStart := by
  intro w hw
  rw [language_name] at hw
  obtain ⟨b, v, hb, -, rfl⟩ := mem_singletons_mul.1 hw
  exact ⟨b, v, hb, rfl⟩

/-! ### Blanks -/

theorem language_blankChar : blankCharRegex.language = singletons (byteOf isBlank) := by
  rw [blankCharRegex, language_or, language_or, language_range, language_range, language_range,
    singletons_add, singletons_add]
  refine singletons_eq_byteOf (t := fun n => 9 ≤ n ∧ n ≤ 10 ∨ 13 ≤ n ∧ n ≤ 13 ∨ 32 ≤ n ∧ n ≤ 32)
    (fun b => ?_) (by decide +kernel)
  simp [UInt8.le_iff_toNat_le]

/-- A character that a blank or a comment begins with. -/
def opensBlank (c : Char) : Bool := [' ', '\t', '\r', '\n', '#'].contains c

theorem mem_blankUnit {w : List UInt8} :
    w ∈ (Regex.or blankCharRegex commentRegex).language →
      (∃ b, byteOf isBlank b ∧ w = [b]) ∨ ∃ v, w = 35 :: v := by
  rw [language_or, language_blankChar, Language.mem_add]
  rintro (⟨b, hb, rfl⟩ | hw)
  · exact .inl ⟨b, hb, rfl⟩
  · obtain ⟨_, rfl, v, -, rfl⟩ := Language.mem_mul.1 hw
    exact .inr ⟨v, rfl⟩

theorem mem_blank_of_append {v u : List UInt8} (hv : ∀ b ∈ v, byteOf isBlank b)
    (h : v ++ u ∈ blankRegex.language) : u ∈ blankRegex.language := by
  induction v with
  | nil => exact h
  | cons b v ih =>
      rw [List.forall_mem_cons] at hv
      obtain ⟨x, y, hx, hy, heq⟩ := cons_mem_kstar h
      rcases mem_blankUnit hx with ⟨b', -, hb'⟩ | ⟨_, hb'⟩
      · obtain ⟨rfl, rfl⟩ := List.cons.inj hb'
        subst heq
        exact ih hv.2 hy
      · -- a comment does not begin with a blank
        obtain ⟨rfl, rfl⟩ := List.cons.inj hb'
        exact absurd hv.1.2 (by decide)

/-- Blanks end where something else follows. -/
theorem longest_blank {w rest : List Char} (hw : ∀ c ∈ w, isBlank c = true)
    (hrest : Ahead (fun c => !opensBlank c) rest) :
    blankRegex.Longest (encoded w) (encoded rest) := by
  have hascii : ∀ c ∈ w, c.toNat < 128 := fun c hc => toNat_lt_of_contains (hw c hc) rfl
  have hbytes : ∀ b ∈ encoded w, byteOf isBlank b := by
    rw [encoded_eq_map hascii]
    intro b hb
    obtain ⟨c, hc, rfl⟩ := List.mem_map.1 hb
    exact byteOf_toUInt8 (hascii c hc) (hw c hc)
  refine ⟨?_, fun u hu hmem => ?_⟩
  · -- each blank is a word of its own
    refine Language.mem_kstar.2 ⟨(encoded w).map fun b => [b], ?_, fun v hv => ?_⟩
    · rw [← List.flatMap_def, List.flatMap_singleton']
    · obtain ⟨b, hb, rfl⟩ := List.mem_map.1 hv
      rw [language_or, language_blankChar]
      exact .inl ⟨b, hbytes b hb, rfl⟩
  · -- what goes on behind the blanks would begin with a blank or a comment
    have hmem := mem_blank_of_append hbytes hmem
    cases u with
    | nil => rfl
    | cons b u =>
        obtain ⟨x, y, hx, -, -⟩ := cons_mem_kstar hmem
        refine absurd ?_ (hrest.not_byteOf hu)
        rcases mem_blankUnit hx with ⟨b', hb, hb'⟩ | ⟨_, hb'⟩
        · obtain ⟨rfl, -⟩ := List.cons.inj hb'
          exact ⟨hb.1, of_contains rfl _ hb.2⟩
        · obtain ⟨rfl, -⟩ := List.cons.inj hb'
          exact ⟨by decide, rfl⟩

/-! ### Literals -/

theorem language_plain : (plainRegex 39).language = singletons fun b => b ≠ 39 ∧ b ≠ 92 := by
  rw [plainRegex, language_or, language_or, language_range, language_range, language_range,
    singletons_add, singletons_add]
  congr 1
  funext b
  have hb := b.toNat_lt
  simp only [UInt8.le_iff_toNat_le, ne_eq, ← UInt8.toNat_inj, eq_iff_iff]
  change 0 ≤ b.toNat ∧ b.toNat ≤ 38 ∨ 40 ≤ b.toNat ∧ b.toNat ≤ 91 ∨ 93 ≤ b.toNat ∧ b.toNat ≤ 255 ↔
    ¬ b.toNat = 39 ∧ ¬ b.toNat = 92
  omega

theorem mem_unit {w : List UInt8} : w ∈ (unitRegex 39).language ↔
    (∃ b, (b ≠ 39 ∧ b ≠ 92) ∧ w = [b]) ∨ ∃ b, w = [92, b] := by
  rw [unitRegex, language_or, language_plain, Language.mem_add]
  refine or_congr Iff.rfl ⟨fun h => ?_, fun h => ?_⟩
  · obtain ⟨_, rfl, _, ⟨b, -, -, rfl⟩, rfl⟩ := Language.mem_mul.1 h
    exact ⟨b, rfl⟩
  · obtain ⟨b, rfl⟩ := h
    refine Language.mem_mul.2 ⟨[92], rfl, [b], ⟨b, ?_, ?_, rfl⟩, rfl⟩
    · exact UInt8.le_iff_toNat_le.2 (Nat.zero_le _)
    · exact UInt8.le_iff_toNat_le.2 (Nat.le_of_lt_succ b.toNat_lt)

theorem mem_quotation {quote : UInt8} {w : List UInt8} : w ∈ (quotationRegex quote).language ↔
    ∃ v ∈ KStar.kstar (unitRegex quote).language, w = quote :: (v ++ [quote]) := by
  constructor
  · intro h
    obtain ⟨_, hopen, _, rfl, rfl⟩ := Language.mem_mul.1 h
    obtain ⟨_, rfl, v, hv, rfl⟩ := Language.mem_mul.1 hopen
    exact ⟨v, hv, rfl⟩
  · rintro ⟨v, hv, rfl⟩
    exact Language.mem_mul.2 ⟨quote :: v, Language.mem_mul.2 ⟨[quote], rfl, v, hv, rfl⟩,
      [quote], rfl, rfl⟩

def behindQuote : List UInt8 → Option (List UInt8)
  | [] => none
  | [b] => if b = 39 then some [] else none
  | b :: c :: rest =>
      if b = 39 then some (c :: rest) else if b = 92 then behindQuote rest
        else behindQuote (c :: rest)

theorem behindQuote_quote (rest : List UInt8) : behindQuote (39 :: rest) = some rest := by
  cases rest with
  | nil => rw [behindQuote, if_pos rfl]
  | cons c rest => rw [behindQuote, if_pos rfl]

theorem behindQuote_unit {w : List UInt8} (hw : w ∈ (unitRegex 39).language) (rest : List UInt8) :
    behindQuote (w ++ rest) = behindQuote rest := by
  rcases mem_unit.1 hw with ⟨b, ⟨hquote, hslash⟩, rfl⟩ | ⟨b, rfl⟩
  · cases rest with
    | nil =>
        rw [List.append_nil, behindQuote, behindQuote, if_neg hquote]
    | cons c rest =>
        rw [List.singleton_append, behindQuote, if_neg hquote, if_neg hslash]
  · rw [List.cons_append, List.singleton_append, behindQuote, if_neg (by decide), if_pos rfl]

theorem behindQuote_units {v : List UInt8} (hv : v ∈ KStar.kstar (unitRegex 39).language)
    (rest : List UInt8) : behindQuote (v ++ rest) = behindQuote rest := by
  obtain ⟨words, rfl, hwords⟩ := Language.mem_kstar.1 hv
  clear hv
  induction words with
  | nil => rfl
  | cons w words ih =>
      rw [List.forall_mem_cons] at hwords
      rw [List.flatten_cons, List.append_assoc, behindQuote_unit hwords.1, ih hwords.2]

theorem plain_mem_units {bs v : List UInt8} (hbs : ∀ b ∈ bs, b ≠ 39 ∧ b ≠ 92)
    (hv : v ∈ KStar.kstar (unitRegex 39).language) :
    bs ++ v ∈ KStar.kstar (unitRegex 39).language := by
  induction bs with
  | nil => exact hv
  | cons b bs ih =>
      rw [List.forall_mem_cons] at hbs
      rw [← List.singleton_append, List.append_assoc]
      exact append_mem_kstar (mem_unit.2 (.inl ⟨b, hbs.1, rfl⟩)) (ih hbs.2)

/-- An escaped text is made of units, none of which is the closing quote. -/
theorem escape_mem_units (cs : List Char) :
    encoded (cs.flatMap escape) ∈ KStar.kstar (unitRegex 39).language := by
  induction cs with
  | nil => exact Language.nil_mem_kstar _
  | cons c cs ih =>
      rw [List.flatMap_cons, encoded_append, escape]
      split
      · rename_i hc
        simp only [Bool.or_eq_true, decide_eq_true_eq] at hc
        refine append_mem_kstar (mem_unit.2 (.inr ⟨c.toUInt8, ?_⟩)) ih
        rcases hc with rfl | rfl <;> rfl
      · rename_i hc
        simp only [Bool.or_eq_true, decide_eq_true_eq, not_or] at hc
        have hbyte : ∀ b ∈ encoded [c], ∀ c' : Char, c ≠ c' → c'.toNat < 128 →
            b.toNat ≠ c'.toNat := by
          intro b hb c' hne hlt heq
          rw [encoded, List.flatMap_singleton] at hb
          have hc := toNat_eq_of_mem_utf8EncodeChar hb (heq ▸ hlt)
          exact hne (Char.toNat_inj.1 (hc.trans heq))
        refine plain_mem_units (fun b hb => ⟨?_, ?_⟩) ih
        · rintro rfl
          exact hbyte _ hb '\'' hc.1 (by decide) rfl
        · rintro rfl
          exact hbyte _ hb '\\' hc.2 (by decide) rfl

theorem encoded_quote (text : String) :
    encoded (quote text) = 39 :: (encoded (text.toList.flatMap escape) ++ [39]) := by
  rw [quote, ← List.singleton_append, encoded_append, encoded_append]
  rfl

/-- A quotation ends with its closing quote, whatever follows. -/
theorem longest_literal (text : String) (rest : List UInt8) :
    literalRegex.Longest (encoded (quote text)) rest := by
  have hunits := escape_mem_units text.toList
  rw [Longest, encoded_quote, literalRegex, language_or]
  refine ⟨.inl (mem_quotation.2 ⟨_, hunits, rfl⟩), fun u _ hmem => ?_⟩
  rcases hmem with hmem | hmem
  · obtain ⟨v, hv, heq⟩ := mem_quotation.1 hmem
    rw [List.cons_append, List.append_assoc, List.cons.injEq] at heq
    have hleft := congrArg behindQuote heq.2
    rw [behindQuote_units hunits, behindQuote_units hv, List.singleton_append, behindQuote_quote,
      behindQuote_quote] at hleft
    exact Option.some.inj hleft
  · obtain ⟨v, -, heq⟩ := mem_quotation.1 hmem
    rw [List.cons_append, List.cons.injEq] at heq
    exact absurd heq.1 (by decide)

def isQuote (c : Char) : Bool := ['\'', '"'].contains c

theorem opensWith_literal : OpensWith literalRegex isQuote := by
  intro w hw
  rcases hw with hw | hw
  · obtain ⟨v, -, rfl⟩ := mem_quotation.1 hw
    exact ⟨39, v ++ [39], ⟨by decide, rfl⟩, rfl⟩
  · obtain ⟨v, -, rfl⟩ := mem_quotation.1 hw
    exact ⟨34, v ++ [34], ⟨by decide, rfl⟩, rfl⟩

theorem resolveEscapes_escape (cs : List Char) : resolveEscapes (cs.flatMap escape) = cs := by
  induction cs with
  | nil => rfl
  | cons c cs ih =>
      rw [List.flatMap_cons, escape]
      split
      · rename_i hc
        simp only [Bool.or_eq_true, decide_eq_true_eq] at hc
        rcases hc with rfl | rfl
        · exact congrArg _ ih
        · exact congrArg _ ih
      · rename_i hc
        simp only [Bool.or_eq_true, decide_eq_true_eq, not_or] at hc
        rw [List.singleton_append, resolveEscapes, ih]
        exact fun c' rest heq => absurd heq hc.2

theorem unquote_quote (text : String) : unquote (String.ofList (quote text)) = text := by
  rw [unquote, String.toList_ofList, quote, List.tail_cons, List.dropLast_concat,
    resolveEscapes_escape, String.ofList_toList]

/-! ### Patterns -/

theorem language_unfenced : unfencedRegex.language = singletons (· ≠ 96) := by
  rw [unfencedRegex, language_or, language_range, language_range, singletons_add]
  congr 1
  funext b
  have hb := b.toNat_lt
  simp only [UInt8.le_iff_toNat_le, ne_eq, ← UInt8.toNat_inj, eq_iff_iff]
  change 0 ≤ b.toNat ∧ b.toNat ≤ 95 ∨ 97 ≤ b.toNat ∧ b.toNat ≤ 255 ↔ ¬ b.toNat = 96
  omega

theorem mem_fence {w : List UInt8} : w ∈ fenceRegex.language ↔
    ∃ v, (∀ b ∈ v, b ≠ 96) ∧ w = 96 :: (v ++ [96]) := by
  have hstar : (Regex.star unfencedRegex).language = KStar.kstar (singletons (· ≠ 96)) := by
    rw [← language_unfenced]
    rfl
  constructor
  · intro h
    obtain ⟨_, hopen, _, rfl, rfl⟩ := Language.mem_mul.1 h
    obtain ⟨_, rfl, v, hv, rfl⟩ := Language.mem_mul.1 hopen
    exact ⟨v, mem_kstar_singletons.1 (hstar ▸ hv), rfl⟩
  · rintro ⟨v, hv, rfl⟩
    refine Language.mem_mul.2 ⟨96 :: v, Language.mem_mul.2 ⟨[96], rfl, v, ?_, rfl⟩, [96], rfl, rfl⟩
    rw [hstar]
    exact mem_kstar_singletons.2 hv

theorem encoded_fence (pattern : String) :
    encoded (fence pattern) = 96 :: (encoded pattern.toList ++ [96]) := by
  rw [fence, ← List.singleton_append, encoded_append, encoded_append]
  rfl

/-- A pattern ends with the backtick behind it, whatever follows. -/
theorem longest_fence {pattern : String} (hpattern : '`' ∉ pattern.toList) (rest : List UInt8) :
    fenceRegex.Longest (encoded (fence pattern)) rest := by
  have hbytes : ∀ b ∈ encoded pattern.toList, b ≠ 96 := by
    rintro b hb rfl
    obtain ⟨c, hc, hb⟩ := List.mem_flatMap.1 hb
    have heq : c.toNat = '`'.toNat := toNat_eq_of_mem_utf8EncodeChar hb (by decide)
    exact hpattern (Char.toNat_inj.1 heq ▸ hc)
  have hbehind : ∀ v u : List UInt8, (∀ b ∈ v, b ≠ 96) →
      (v ++ 96 :: u).dropWhile (· ≠ 96) = 96 :: u := by
    intro v u hv
    rw [List.dropWhile_append_of_pos (by simpa using hv)]
    rfl
  rw [Longest, encoded_fence]
  refine ⟨mem_fence.2 ⟨_, hbytes, rfl⟩, fun u _ hmem => ?_⟩
  obtain ⟨v, hv, heq⟩ := mem_fence.1 hmem
  rw [List.cons_append, List.append_assoc, List.cons.injEq] at heq
  have hleft := congrArg (List.dropWhile (· ≠ 96)) heq.2
  rw [List.singleton_append, hbehind _ _ hbytes, hbehind _ _ hv] at hleft
  exact (List.cons.inj hleft).2

theorem opensWith_fence : OpensWith fenceRegex (· = '`') := by
  intro w hw
  obtain ⟨v, -, rfl⟩ := mem_fence.1 hw
  exact ⟨96, v ++ [96], ⟨by decide, rfl⟩, rfl⟩

theorem dropWhile_of_notMem {cs : List Char} (h : '`' ∉ cs) : cs.dropWhile (· = '`') = cs := by
  cases cs with
  | nil => rfl
  | cons c cs =>
      rw [List.mem_cons, not_or] at h
      rw [List.dropWhile_cons_of_neg]
      simpa using Ne.symm h.1

theorem unfence_fence {pattern : String} (hpattern : '`' ∉ pattern.toList) :
    unfence (String.ofList (fence pattern)) = pattern := by
  have hfirst : (pattern.toList ++ ['`']).dropWhile (· = '`') =
      if pattern.toList = [] then [] else pattern.toList ++ ['`'] := by
    cases hchars : pattern.toList with
    | nil => rfl
    | cons c cs =>
        rw [hchars, List.mem_cons, not_or] at hpattern
        rw [List.cons_append, List.dropWhile_cons_of_neg (by simpa using Ne.symm hpattern.1)]
        rfl
  rw [unfence, String.toList_ofList, fence, List.dropWhile_cons_of_pos (by simp), hfirst]
  split
  · rename_i hnil
    rw [← String.toList_inj, hnil]
    rfl
  · rw [List.reverse_append, List.reverse_singleton, List.singleton_append,
      List.dropWhile_cons_of_pos (by simp), dropWhile_of_notMem (by simpa using hpattern),
      List.reverse_reverse, String.ofList_toList]

end Seedling.Ebnf
