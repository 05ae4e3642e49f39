import Mathlib.Data.List.TakeWhile
import Seedling.Json.Decode

/-!
What is written can be read. The text of a document in front of anything that does not continue
a number is read as the document, and what follows is left; so a text that is nothing else is
read as a whole.
-/

namespace Seedling.Json

/-- Documents with numbers in decimal and strings that are escaped where they have to be. -/
inductive Written : Json → Prop where
  | null : Written .null
  | bool (b : Bool) : Written (.bool b)
  | number (n : Nat) : Written (.ofNat n)
  | string (cs : List Char) : Written (.string (escape cs))
  | array {items : List Json} : (∀ item ∈ items, Written item) → Written (.array items)
  | object {members : List (List Char × Json)} : (∀ m ∈ members, ∃ cs, m.1 = escape cs) →
      (∀ m ∈ members, Written m.2) → Written (.object members)

/-! ### Strings -/

theorem toList_hexByte (b : UInt8) :
    (Text.hexByte b).toList = [Nat.digitChar (b.toNat / 16), Nat.digitChar (b.toNat % 16)] := by
  have hb := b.toNat_lt
  by_cases hlt : b.toNat < 16
  · have hhigh : b.toNat / 16 = 0 := by omega
    have hlow : b.toNat % 16 = b.toNat := by omega
    have hbyte : b < 16 := UInt8.lt_iff_toNat_lt.2 hlt
    simp [Text.hexByte, Text.hex, hbyte, Nat.toDigits_of_lt_base hlt, hhigh, hlow]
  · have hhigh : b.toNat / 16 < 16 := by omega
    have hbyte : ¬ b < 16 := fun h => hlt (UInt8.lt_iff_toNat_lt.1 h)
    simp [Text.hexByte, Text.hex, hbyte, Nat.toDigits_of_base_le (by decide) (Nat.le_of_not_lt hlt),
      Nat.toDigits_of_lt_base hhigh]

theorem isHexDigit_digitChar : ∀ n < 16, isHexDigit n.digitChar = true := by decide

theorem readLexeme_short {e : Char} (he : e ∈ ['"', '\\', '/', 'b', 'f', 'n', 'r', 't'])
    (cs : List Char) :
    readLexeme ('\\' :: e :: cs) = (readLexeme cs).map fun r => ('\\' :: e :: r.1, r.2) := by
  have hu : e ≠ 'u' := by
    rintro rfl
    exact absurd he (by decide)
  rw [readLexeme, if_pos he]
  · rintro a b c d rest rfl
    exact absurd rfl hu

theorem readLexeme_escapeChar (c : Char) (cs : List Char) :
    readLexeme (escapeChar c ++ cs) = (readLexeme cs).map fun r => (escapeChar c ++ r.1, r.2) := by
  unfold escapeChar
  split_ifs with hquote hslash hn hr ht hb hf hcontrol
  any_goals exact readLexeme_short (by decide) cs
  · have hzero : isHexDigit '0' = true := by decide
    have hhigh := isHexDigit_digitChar (c.toNat.toUInt8.toNat / 16)
      (by have := c.toNat.toUInt8.toNat_lt; omega)
    have hlow := isHexDigit_digitChar (c.toNat.toUInt8.toNat % 16) (Nat.mod_lt _ (by decide))
    rw [toList_hexByte]
    simp only [List.cons_append, List.nil_append, readLexeme, hzero, hhigh, hlow,
      Bool.and_self, if_true]
  -- Quotes, backslashes and control characters are ruled out, so the last clause applies.
  · rw [List.singleton_append, readLexeme.eq_def]
    split <;> simp_all [Nat.not_lt.2]

theorem escape_cons (c : Char) (cs : List Char) : escape (c :: cs) = escapeChar c ++ escape cs :=
  List.flatMap_cons

theorem readLexeme_escape (cs rest : List Char) :
    readLexeme (escape cs ++ '"' :: rest) = some (escape cs, rest) := by
  induction cs with
  | nil => simp [escape, readLexeme]
  | cons c cs ih => rw [escape_cons, List.append_assoc, readLexeme_escapeChar, ih, Option.map_some]

/-! ### Numbers -/

theorem isDigit_of_mem_toDigits {n : Nat} : ∀ c ∈ Nat.toDigits 10 n, c.isDigit = true :=
  fun _ hc => Nat.isDigit_of_mem_toDigits (by decide) (by decide) hc

theorem exists_digit_cons (n : Nat) : ∃ d ds, Nat.toDigits 10 n = d :: ds ∧ d.isDigit = true := by
  obtain ⟨d, ds, hds⟩ := List.exists_cons_of_ne_nil (Nat.toDigits_ne_nil (n := n) (b := 10))
  exact ⟨d, ds, hds, isDigit_of_mem_toDigits (n := n) d (by simp [hds])⟩

theorem ne_of_isDigit {c d : Char} (hc : c.isDigit = true) (hd : d.isDigit = false) : c ≠ d := by
  rintro rfl
  rw [hc] at hd
  contradiction

theorem isSpace_of_isDigit {c : Char} (hc : c.isDigit = true) : isSpace c = false := by
  have hblank : c ≠ ' ' := ne_of_isDigit hc (by decide)
  have hline : c ≠ '\n' := ne_of_isDigit hc (by decide)
  have htab : c ≠ '\t' := ne_of_isDigit hc (by decide)
  have hreturn : c ≠ '\r' := ne_of_isDigit hc (by decide)
  simp [isSpace, hblank, hline, htab, hreturn]

theorem toDigits_of_head? (n : Nat) (h : (Nat.toDigits 10 n).head? = some '0') :
    Nat.toDigits 10 n = ['0'] := by
  have hdigit : ∀ m < 10, 0 < m → [m.digitChar].head? ≠ some '0' := by decide
  have hpos : ∀ m, 0 < m → (Nat.toDigits 10 m).head? ≠ some '0' := by
    intro m
    induction m using Nat.strongRecOn with
    | ind m ih =>
        intro hm
        by_cases hlt : m < 10
        · rw [Nat.toDigits_of_lt_base hlt]
          exact hdigit m hlt hm
        · rw [Nat.toDigits_of_base_le (by decide) (Nat.not_lt.1 hlt),
            List.head?_append, Option.or_of_isSome (by simp [Nat.toDigits_ne_nil])]
          exact ih _ (Nat.div_lt_self hm (by decide)) (by omega)
  cases Nat.eq_zero_or_pos n with
  | inl hzero => rw [hzero]; rfl
  | inr hn => exact absurd h (hpos n hn)

/-- What does not continue a number. -/
def Stops (rest : List Char) : Prop :=
  ∀ c ∈ rest.head?, c.isDigit = false ∧ c ≠ '.' ∧ c ≠ 'e' ∧ c ≠ 'E'

theorem readDigits_append {ds rest : List Char} (hds : ∀ c ∈ ds, c.isDigit = true)
    (hrest : Stops rest) : readDigits (ds ++ rest) = (ds, rest) := by
  rw [readDigits, List.takeWhile_append_of_pos hds, List.dropWhile_append_of_pos hds]
  cases rest with
  | nil => simp
  | cons c rest =>
      have hc := (hrest c rfl).1
      simp [hc]

theorem readWhole_toDigits (n : Nat) {rest : List Char} (hrest : Stops rest) :
    readWhole (Nat.toDigits 10 n ++ rest) = some (Nat.toDigits 10 n, rest) := by
  obtain ⟨d, ds, hds, -⟩ := exists_digit_cons n
  have hread := readDigits_append (isDigit_of_mem_toDigits (n := n)) hrest
  by_cases hd : d = '0'
  · have hzero := toDigits_of_head? n (by simp [hds, hd])
    rw [hzero]
    rfl
  · rw [hds, List.cons_append] at hread ⊢
    rw [readWhole.eq_def, hread]
    split
    · simp_all
    · rfl

theorem readFraction_of_stops {rest : List Char} (hrest : Stops rest) :
    readFraction rest = some ([], rest) := by
  rw [readFraction.eq_def]
  split
  · exact absurd rfl (hrest '.' rfl).2.1
  · rfl

theorem readExponent_of_stops {rest : List Char} (hrest : Stops rest) :
    readExponent rest = some ([], rest) := by
  rw [readExponent.eq_def]
  dsimp only
  split
  · exact absurd rfl (hrest 'e' rfl).2.2.1
  · exact absurd rfl (hrest 'E' rfl).2.2.2
  · rfl

theorem readNumber_toDigits (n : Nat) {rest : List Char} (hrest : Stops rest) :
    readNumber (Nat.toDigits 10 n ++ rest) = some (Nat.toDigits 10 n, rest) := by
  obtain ⟨d, ds, hds, hdigit⟩ := exists_digit_cons n
  have hd : d ≠ '-' := ne_of_isDigit hdigit (by decide)
  have hwhole := readWhole_toDigits n hrest
  rw [hds, List.cons_append] at hwhole ⊢
  simp [readNumber, hd, hwhole, readFraction_of_stops hrest, readExponent_of_stops hrest]

/-! ### Documents -/

/-- The text of the document is read as the document, with enough fuel for its length. -/
def Reads (j : Json) : Prop :=
  ∀ n rest, Stops rest → 2 * j.render.length ≤ n → readValue n (j.render ++ rest) = some (j, rest)

theorem skipSpace_cons {c : Char} (hc : isSpace c = false) (cs : List Char) :
    skipSpace (c :: cs) = c :: cs := by
  simp [skipSpace, hc]

/-- No document starts with a blank or a closing bracket. -/
theorem Written.exists_cons {j : Json} (h : Written j) :
    ∃ c cs, j.render = c :: cs ∧ isSpace c = false ∧ c ≠ ']' := by
  cases h with
  | null => exact ⟨_, _, rfl, by decide, by decide⟩
  | bool b => cases b <;> exact ⟨_, _, rfl, by decide, by decide⟩
  | number n =>
      obtain ⟨d, ds, hds, hd⟩ := exists_digit_cons n
      exact ⟨d, ds, hds, isSpace_of_isDigit hd, ne_of_isDigit hd (by decide)⟩
  | string cs => exact ⟨_, _, rfl, by decide, by decide⟩
  | array h => exact ⟨_, _, rfl, by decide, by decide⟩
  | object hkeys h => exact ⟨_, _, rfl, by decide, by decide⟩

theorem readValue_of_isDigit {d : Char} (hd : d.isDigit = true) (n : Nat) (cs : List Char) :
    readValue (n + 1) (d :: cs) = (readNumber (d :: cs)).map fun r => (.number r.1, r.2) := by
  rw [readValue, skipSpace_cons (isSpace_of_isDigit hd)]
  split <;> simp_all

theorem reads_number (n : Nat) : Reads (.ofNat n) := by
  intro fuel rest hrest hfuel
  obtain ⟨d, ds, hds, hd⟩ := exists_digit_cons n
  have hread := readNumber_toDigits n hrest
  rw [ofNat, render, hds] at hfuel ⊢
  rw [hds] at hread
  cases fuel with
  | zero => simp at hfuel
  | succ fuel =>
      rw [List.cons_append, readValue_of_isDigit hd, ← List.cons_append, hread]
      rfl

theorem readItems_render {items : List Json} (hitems : ∀ item ∈ items, Written item ∧ Reads item)
    (hne : items ≠ []) (rest : List Char) {n : Nat} (hn : 2 * (renderItems items).length < n) :
    readItems n (renderItems items ++ ']' :: rest) = some (items, rest) := by
  induction items generalizing n with
  | nil => contradiction
  | cons item items ih =>
      obtain ⟨hwritten, hreads⟩ := hitems item List.mem_cons_self
      -- The item has a character at least, which with the comma pays for the two calls it takes.
      obtain ⟨c, cs, hc, -⟩ := hwritten.exists_cons
      obtain ⟨n, rfl⟩ := Nat.exists_eq_add_one_of_ne_zero (Nat.ne_of_gt (Nat.zero_lt_of_lt hn))
      cases items with
      | nil =>
          rw [renderItems] at hn ⊢
          rw [readItems, hreads n (']' :: rest) (by simp [Stops]) (by omega)]
          rfl
      | cons next items =>
          have hrest := ih (n := n) (fun i hi => hitems i (List.mem_cons_of_mem _ hi)) (by simp)
            (by simp [renderItems, hc] at hn ⊢; omega)
          rw [renderItems] at hn ⊢
          simp only [List.length_append, List.length_cons] at hn
          rw [List.append_assoc, readItems, hreads n _ (by simp [Stops]) (by omega)]
          simp only [List.cons_append, skipSpace_cons (show isSpace ',' = false by decide), hrest,
            Option.map_some]

section

variable {value : Json} (hvalue : Reads value) (key rest : List Char) {n : Nat}
  (hn : 2 * value.render.length ≤ n)

include hvalue hn

theorem readMembers_last :
    readMembers (n + 1) ('"' :: escape key ++ '"' :: ':' :: value.render ++ '\x7d' :: rest) =
      some ([(escape key, value)], rest) := by
  have hread := hvalue n ('\x7d' :: rest) (by simp [Stops]) hn
  rw [readMembers, List.append_assoc, List.cons_append, skipSpace_cons (by decide)]
  simp only [List.cons_append, readLexeme_escape,
    skipSpace_cons (show isSpace ':' = false by decide),
    hread, skipSpace_cons (show isSpace '\x7d' = false by decide)]

theorem readMembers_next :
    readMembers (n + 1) ('"' :: escape key ++ '"' :: ':' :: value.render ++ ',' :: rest) =
      (readMembers n rest).map fun r => ((escape key, value) :: r.1, r.2) := by
  have hread := hvalue n (',' :: rest) (by simp [Stops]) hn
  rw [readMembers, List.append_assoc, List.cons_append, skipSpace_cons (by decide)]
  simp only [List.cons_append, readLexeme_escape,
    skipSpace_cons (show isSpace ':' = false by decide),
    hread, skipSpace_cons (show isSpace ',' = false by decide)]

end

theorem readMembers_render {members : List (List Char × Json)}
    (hkeys : ∀ m ∈ members, ∃ cs, m.1 = escape cs)
    (hvalues : ∀ m ∈ members, Reads m.2) (hne : members ≠ []) (rest : List Char) {n : Nat}
    (hn : 2 * (renderMembers members).length < n) :
    readMembers n (renderMembers members ++ '\x7d' :: rest) = some (members, rest) := by
  induction members generalizing n with
  | nil => contradiction
  | cons member members ih =>
      obtain ⟨key, value⟩ := member
      have hreads := hvalues _ List.mem_cons_self
      obtain ⟨name, hname⟩ := hkeys _ List.mem_cons_self
      dsimp only at hname hreads
      subst hname
      obtain ⟨n, rfl⟩ := Nat.exists_eq_add_one_of_ne_zero (Nat.ne_of_gt (Nat.zero_lt_of_lt hn))
      cases members with
      | nil =>
          rw [renderMembers] at hn ⊢
          simp only [List.length_append, List.length_cons] at hn
          exact readMembers_last hreads name rest (by omega)
      | cons next members =>
          have hrest := ih (n := n) (fun m hm => hkeys m (List.mem_cons_of_mem _ hm))
            (fun m hm => hvalues m (List.mem_cons_of_mem _ hm)) (by simp)
            (by simp [renderMembers] at hn ⊢; omega)
          rw [renderMembers] at hn ⊢
          simp only [List.length_append, List.length_cons] at hn
          have hstep := readMembers_next hreads name
            (renderMembers (next :: members) ++ '\x7d' :: rest)
            (n := n) (by omega)
          rw [hrest] at hstep
          rw [List.append_assoc]
          exact hstep

theorem reads_string (cs : List Char) : Reads (.string (escape cs)) := by
  intro n rest _ hn
  cases n with
  | zero => simp [render] at hn
  | succ n =>
      rw [render, List.append_assoc, List.cons_append, readValue, skipSpace_cons (by decide)]
      simp [readLexeme_escape]

theorem reads_array {items : List Json} (hitems : ∀ item ∈ items, Written item ∧ Reads item) :
    Reads (.array items) := by
  intro n rest _ hn
  cases n with
  | zero => simp [render] at hn
  | succ n =>
      cases items with
      | nil => rfl
      | cons item items =>
          obtain ⟨c, cs, hc, hspace, hclose⟩ := (hitems item List.mem_cons_self).1.exists_cons
          obtain ⟨tail, htail⟩ : ∃ tail, renderItems (item :: items) = c :: tail := by
            cases items <;> simp [renderItems, hc]
          have hread := readItems_render hitems (by simp) rest (n := n)
            (by simp [render] at hn ⊢; omega)
          rw [render, List.append_assoc, List.cons_append, readValue, skipSpace_cons (by decide)]
          rw [htail] at hread ⊢
          simp only [List.cons_append, List.nil_append, skipSpace_cons hspace] at hread ⊢
          -- The first item does not look like the end of an empty array.
          split <;> simp_all

theorem reads_object {members : List (List Char × Json)}
    (hkeys : ∀ m ∈ members, ∃ cs, m.1 = escape cs)
    (hvalues : ∀ m ∈ members, Reads m.2) : Reads (.object members) := by
  intro n rest _ hn
  cases n with
  | zero => simp [render] at hn
  | succ n =>
      cases members with
      | nil => rfl
      | cons member members =>
          obtain ⟨tail, htail⟩ : ∃ tail, renderMembers (member :: members) = '"' :: tail := by
            cases members <;> simp [renderMembers]
          have hread := readMembers_render hkeys hvalues (by simp) rest (n := n)
            (by simp [render] at hn ⊢; omega)
          rw [render, List.append_assoc, List.cons_append, readValue, skipSpace_cons (by decide)]
          rw [htail] at hread ⊢
          simp only [List.cons_append, List.nil_append,
            skipSpace_cons (show isSpace '"' = false by decide)] at hread ⊢
          split <;> simp_all

theorem Written.reads {j : Json} (h : Written j) : Reads j := by
  induction h with
  | null =>
      intro n rest _ hn
      cases n with
      | zero => simp [render] at hn
      | succ n => rfl
  | bool b =>
      intro n rest _ hn
      cases n with
      | zero => cases b <;> simp [render] at hn
      | succ n => cases b <;> rfl
  | number n => exact reads_number n
  | string cs => exact reads_string cs
  | array h ih => exact reads_array fun item hitem => ⟨h item hitem, ih item hitem⟩
  | object hkeys h ih => exact reads_object hkeys ih

/-- A written document is read from its text, of which nothing is left. -/
theorem Written.readFront_text {j : Json} (h : Written j) : readFront j.text = some (j, []) := by
  have hread := h.reads (2 * j.text.length + 2) [] (by simp [Stops]) (by simp [text])
  simpa [readFront, text] using hread

theorem Written.read_text {j : Json} (h : Written j) : read j.text = some j := by
  rw [read, h.readFront_text]
  rfl

end Seedling.Json
