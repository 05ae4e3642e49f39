import Seedling.Proofs.Regex.Notation

/-!
Two dialects have the same phrases in a text where they agree on its numbers. What is left after
a phrase is a suffix of the text, and so the numbers in it are numbers of the text.
-/

namespace Seedling.Regex

section Suffix

variable {d : Dialect} {cs rest : List UInt8}

theorem Escape.suffix {inClass : Bool} {v : Option UInt8} (h : Escape d inClass v cs rest) :
    rest <:+ cs := by
  cases h with
  | letter | backspace | itself => exact List.suffix_cons _ _
  | hex => exact ⟨[_, _, _], rfl⟩
  | octal => exact List.suffix_append _ _
  | control => exact ⟨[_, _], rfl⟩

theorem Single.suffix {v : Option UInt8} (h : Single d v cs rest) : rest <:+ cs := by
  cases h with
  | byte => exact List.suffix_cons _ _
  | escape h => exact h.suffix.trans (List.suffix_cons _ _)

theorem ClassItem.suffix (h : ClassItem d cs rest) : rest <:+ cs := by
  cases h with
  | shorthand h | byte h => exact h.suffix
  | range hlo _ hhi => exact (hhi.suffix.trans (List.suffix_cons _ _)).trans hlo.suffix

theorem ClassItems.suffix (h : ClassItems d cs rest) : rest <:+ cs := by
  induction h with
  | close => exact List.suffix_cons _ _
  | item _ hitem _ ih => exact ih.trans hitem.suffix

theorem Class.suffix (h : Class d cs rest) : rest <:+ cs := by
  cases h with
  | positive _ hitem hitems => exact hitems.suffix.trans hitem.suffix
  | negative hitem hitems => exact (hitems.suffix.trans hitem.suffix).trans (List.suffix_cons _ _)

theorem Count.suffix {min : Nat} {max : Option Nat} (h : Count d min max cs rest) :
    rest <:+ cs := by
  cases h with
  | @exactly ds => exact ⟨ds ++ ['\x7d'.toUInt8], by simp⟩
  | @atLeast ds => exact ⟨ds ++ [','.toUInt8, '\x7d'.toUInt8], by simp⟩
  | @between ds es => exact ⟨ds ++ ','.toUInt8 :: (es ++ ['\x7d'.toUInt8]), by simp⟩

theorem Quantifier.suffix (h : Quantifier d cs rest) : rest <:+ cs := by
  cases h with
  | sign => exact List.suffix_cons _ _
  | count h => exact h.suffix.trans (List.suffix_cons _ _)

theorem Quantifiers.suffix (h : Quantifiers d cs rest) : rest <:+ cs := by
  induction h with
  | nil => exact List.suffix_rfl
  | cons h _ ih => exact ih.trans h.suffix

theorem Spells.suffix {symbol : Symbol} (h : Spells d symbol cs rest) : rest <:+ cs := by
  induction h with
  | last _ ih => exact ih
  | more _ _ ih ih' => exact (ih'.trans (List.suffix_cons _ _)).trans ih
  | nil => exact List.suffix_rfl
  | cons _ hquantifiers _ ih ih' => exact (ih'.trans hquantifiers.suffix).trans ih
  | group _ ih => exact ((List.suffix_cons _ _).trans ih).trans (List.suffix_cons _ _)
  | bracket h => exact h.suffix.trans (List.suffix_cons _ _)
  | escape h => exact h.suffix.trans (List.suffix_cons _ _)
  | any | byte => exact List.suffix_cons _ _

end Suffix

/-- What one dialect reads as a hexadecimal number in a text the other does too. -/
def KeepsHex (d d' : Dialect) (cs : List UInt8) : Prop :=
  ∀ a b rest, '\\'.toUInt8 :: 'x'.toUInt8 :: a :: b :: rest <:+ cs →
    ∀ v, d.hex a b = some v → d'.hex a b = some v

namespace KeepsHex

variable {d d' : Dialect} {cs rest : List UInt8}

theorem of_suffix (h : KeepsHex d d' cs) (hrest : rest <:+ cs) : KeepsHex d d' rest :=
  fun a b _ hx => h a b _ (hx.trans hrest)

theorem tail {c : UInt8} (h : KeepsHex d d' (c :: cs)) : KeepsHex d d' cs :=
  h.of_suffix (List.suffix_cons c cs)

theorem escape (h : KeepsHex d d' ('\\'.toUInt8 :: cs)) {inClass : Bool} {v : Option UInt8}
    (hescape : Escape d inClass v cs rest) : Escape d' inClass v cs rest := by
  cases hescape with
  | letter hc => exact .letter hc
  | backspace hclass => exact .backspace hclass
  | hex hv => exact .hex (h _ _ _ List.suffix_rfl _ hv)
  | octal hne hlength hoctal hrest hvalue => exact .octal hne hlength hoctal hrest hvalue
  | control hx => exact .control hx
  | itself hletter hdigit => exact .itself hletter hdigit

theorem single (h : KeepsHex d d' cs) {v : Option UInt8} (hsingle : Single d v cs rest) :
    Single d' v cs rest := by
  cases hsingle with
  | byte hc => exact .byte hc
  | escape hescape => exact .escape (h.escape hescape)

theorem classItem (h : KeepsHex d d' cs) (hitem : ClassItem d cs rest) : ClassItem d' cs rest := by
  cases hitem with
  | shorthand hset => exact .shorthand (h.single hset)
  | byte hbyte hplain => exact .byte (h.single hbyte) hplain
  | range hlo hhead hhi hle =>
    exact .range (h.single hlo) hhead ((h.of_suffix hlo.suffix).tail.single hhi) hle

theorem classItems (h : KeepsHex d d' cs) (hitems : ClassItems d cs rest) :
    ClassItems d' cs rest := by
  induction hitems with
  | close => exact .close
  | item hhead hitem _ ih => exact .item hhead (h.classItem hitem) (ih (h.of_suffix hitem.suffix))

theorem bracket (h : KeepsHex d d' cs) (hclass : Class d cs rest) : Class d' cs rest := by
  cases hclass with
  | positive hhead hitem hitems =>
    exact .positive hhead (h.classItem hitem) ((h.of_suffix hitem.suffix).classItems hitems)
  | negative hitem hitems =>
    exact .negative (h.tail.classItem hitem) ((h.tail.of_suffix hitem.suffix).classItems hitems)

end KeepsHex

/-- The dialects read the numbers of a text in the same way. -/
structure Agree (d d' : Dialect) (cs : List UInt8) : Prop where
  hex {a b : UInt8} {rest : List UInt8} : '\\'.toUInt8 :: 'x'.toUInt8 :: a :: b :: rest <:+ cs →
    d.hex a b = d'.hex a b
  count {min : Nat} {max : Option Nat} {tail rest : List UInt8} : '\x7b'.toUInt8 :: tail <:+ cs →
    (Count d min max tail rest ↔ Count d' min max tail rest)

namespace Agree

variable {d d' : Dialect} {cs rest : List UInt8}

theorem symm (h : Agree d d' cs) : Agree d' d cs :=
  ⟨fun hx => (h.hex hx).symm, fun hbrace => (h.count hbrace).symm⟩

theorem of_suffix (h : Agree d d' cs) (hrest : rest <:+ cs) : Agree d d' rest :=
  ⟨fun hx => h.hex (hx.trans hrest), fun hbrace => h.count (hbrace.trans hrest)⟩

theorem tail {c : UInt8} (h : Agree d d' (c :: cs)) : Agree d d' cs :=
  h.of_suffix (List.suffix_cons c cs)

theorem keepsHex (h : Agree d d' cs) : KeepsHex d d' cs :=
  fun _ _ _ hx _ hv => h.hex hx ▸ hv

theorem opensCount (h : Agree d d' cs) (hopens : OpensCount d cs) : OpensCount d' cs := by
  obtain ⟨tail, min, max, rest, rfl, hcount⟩ := hopens
  exact ⟨tail, min, max, rest, rfl, (h.count List.suffix_rfl).1 hcount⟩

theorem quantifier (h : Agree d d' cs) (hquantifier : Quantifier d cs rest) :
    Quantifier d' cs rest := by
  cases hquantifier with
  | sign hc => exact .sign hc
  | count hcount hordered => exact .count ((h.count List.suffix_rfl).1 hcount) hordered

theorem quantifiers (h : Agree d d' cs) (hquantifiers : Quantifiers d cs rest) :
    Quantifiers d' cs rest := by
  induction hquantifiers with
  | nil hopens => exact .nil (mt h.symm.opensCount hopens)
  | cons hquantifier _ ih =>
    exact .cons (h.quantifier hquantifier) (ih (h.of_suffix hquantifier.suffix))

theorem spells (h : Agree d d' cs) {symbol : Symbol} (hspells : Spells d symbol cs rest) :
    Spells d' symbol cs rest := by
  induction hspells with
  | last _ ih => exact .last (ih h)
  | more hsequence _ ih ih' => exact .more (ih h) (ih' (h.of_suffix hsequence.suffix).tail)
  | nil => exact .nil
  | cons hatom hquantifiers _ ih ih' =>
    have hmid := h.of_suffix hatom.suffix
    exact .cons (ih h) (hmid.quantifiers hquantifiers) (ih' (hmid.of_suffix hquantifiers.suffix))
  | group _ ih => exact .group (ih h.tail)
  | bracket hclass => exact .bracket (h.tail.keepsHex.bracket hclass)
  | any => exact .any
  | escape hescape => exact .escape (h.keepsHex.escape hescape)
  | byte hc => exact .byte hc

end Agree

namespace Count

variable {d : Dialect} {min : Nat} {max : Option Nat} {cs rest : List UInt8}

theorem strict (h : Count d min max cs rest) : Count .strict min max cs rest := by
  cases h with
  | exactly hds => exact .exactly hds rfl
  | atLeast hds => exact .atLeast hds rfl
  | between hds _ hes => exact .between hds rfl hes

theorem lenient (h : Count d min max cs rest) (hmin : min < UInt64.size) :
    Count .lenient min max cs rest := by
  cases h with
  | exactly hds => exact .exactly hds (decide_eq_true hmin)
  | atLeast hds => exact .atLeast hds (decide_eq_true hmin)
  | between hds _ hes => exact .between hds (decide_eq_true hmin) hes

/-- The lenient dialect has those counts of the strict one whose lower bound fits. -/
theorem lenient_iff : Count .lenient min max cs rest ↔ Count .strict min max cs rest ∧
      min < UInt64.size := by
  refine ⟨fun h => ⟨h.strict, ?_⟩, fun h => h.1.lenient h.2⟩
  cases h with
  | exactly _ hlower | atLeast _ hlower | between _ hlower => exact of_decide_eq_true hlower

end Count

/-- No number of a text has a sign, and no count is too large for the lenient dialect. -/
structure PlainNumbers (cs : List UInt8) : Prop where
  unsigned : ¬ ['\\', 'x', '+'].map Char.toUInt8 <:+: cs
  bounded {min : Nat} {max : Option Nat} {tail rest : List UInt8} :
    '\x7b'.toUInt8 :: tail <:+ cs → Count .strict min max tail rest → min < UInt64.size

theorem PlainNumbers.agree {cs : List UInt8} (h : PlainNumbers cs) : Agree .lenient .strict cs where
  hex {a b rest} hx := by
    have ha : a ≠ '+'.toUInt8 := by
      rintro rfl
      exact h.unsigned (List.IsInfix.trans ⟨[], b :: rest, rfl⟩ hx.isInfix)
    exact if_neg ha
  count hbrace := by
    rw [Count.lenient_iff]
    exact ⟨And.left, fun hcount => ⟨hcount, h.bounded hbrace hcount⟩⟩

/-- What stands behind the lower bound of a count. -/
def closesCount (cs : List UInt8) : Bool :=
  cs.head? = some '\x7d'.toUInt8 ||
    (cs.head? = some ','.toUInt8 &&
      (cs.tail.dropWhile isDigit).head? = some '\x7d'.toUInt8)

/-- A count stands behind a brace if digits do, and then what closes it. -/
theorem exists_count_iff {n : Nat} (hn : 0 < n) {cs : List UInt8} :
    (∃ min max rest, Count .strict min max cs rest ∧ n ≤ min) ↔
      n ≤ numeral 10 (cs.takeWhile isDigit) ∧ closesCount (cs.dropWhile isDigit) = true := by
  have hdrop : ∀ {ds : List UInt8}, Digits ds → ∀ {b : UInt8}, isDigit b = false → ∀ rest,
      (ds ++ b :: rest).dropWhile isDigit = b :: rest := by
    intro ds hds b hb rest
    rw [List.dropWhile_append_of_pos hds.2, List.dropWhile_cons_of_neg (by simp [hb])]
  constructor
  · rintro ⟨min, max, rest, hcount, hmin⟩
    cases hcount with
    | exactly hds =>
      rw [takeWhile_digits hds.2 rfl, hdrop hds rfl]
      exact ⟨hmin, rfl⟩
    | atLeast hds =>
      rw [takeWhile_digits hds.2 rfl, hdrop hds rfl]
      exact ⟨hmin, rfl⟩
    | @between ds es rest hds _ hes =>
      rw [takeWhile_digits hds.2 rfl, hdrop hds rfl]
      refine ⟨hmin, ?_⟩
      rw [closesCount, List.tail_cons, hdrop hes rfl]
      rfl
  · rintro ⟨hmin, hcloses⟩
    have hdigits : Digits (cs.takeWhile isDigit) := by
      refine ⟨fun hnil => ?_, fun b hb => List.all_eq_true.1 List.all_takeWhile b hb⟩
      rw [hnil] at hmin
      exact absurd hn (Nat.not_lt_of_le hmin)
    have hsplit := List.takeWhile_append_dropWhile (p := isDigit) (l := cs)
    generalize cs.takeWhile isDigit = ds at *
    generalize cs.dropWhile isDigit = tail at *
    subst hsplit
    simp only [closesCount, Bool.or_eq_true, Bool.and_eq_true, decide_eq_true_eq] at hcloses
    rcases hcloses with hbrace | ⟨hcomma, hbrace⟩
    · obtain ⟨rest, rfl⟩ := List.head?_eq_some_iff.1 hbrace
      exact ⟨_, _, rest, .exactly hdigits rfl, hmin⟩
    · obtain ⟨more, rfl⟩ := List.head?_eq_some_iff.1 hcomma
      obtain ⟨rest, hrest⟩ := List.head?_eq_some_iff.1 hbrace
      have hmore := List.takeWhile_append_dropWhile (p := isDigit) (l := more)
      rw [List.tail_cons] at hrest
      rw [hrest] at hmore
      rw [← hmore]
      by_cases hempty : more.takeWhile isDigit = []
      · rw [hempty]
        exact ⟨_, _, rest, .atLeast hdigits rfl, hmin⟩
      · have hupper : Digits (more.takeWhile isDigit) :=
          ⟨hempty, fun b hb => List.all_eq_true.1 List.all_takeWhile b hb⟩
        exact ⟨_, _, rest, .between hdigits rfl hupper, hmin⟩

instance (cs : List UInt8) : Decidable (PlainNumbers cs) :=
  decidable_of_iff
    (¬ ['\\', 'x', '+'].map Char.toUInt8 <:+: cs ∧
      ∀ tail ∈ cs.tails, tail.head? = some '\x7b'.toUInt8 →
        ¬ (UInt64.size ≤ numeral 10 (tail.tail.takeWhile isDigit) ∧
          closesCount (tail.tail.dropWhile isDigit) = true)) <| by
    have hsize : 0 < UInt64.size := by decide
    constructor
    · rintro ⟨hunsigned, hbounded⟩
      refine ⟨hunsigned, fun {min max tail rest} hbrace hcount => Nat.lt_of_not_le fun hmin => ?_⟩
      exact hbounded _ ((List.mem_tails _ _).2 hbrace) rfl
        ((exists_count_iff hsize).1 ⟨min, max, rest, hcount, hmin⟩)
    · rintro ⟨hunsigned, hbounded⟩
      refine ⟨hunsigned, fun tail htail hhead hlarge => ?_⟩
      obtain ⟨rest, rfl⟩ := List.head?_eq_some_iff.1 hhead
      obtain ⟨min, max, rest', hcount, hmin⟩ := (exists_count_iff hsize).2 hlarge
      exact Nat.not_lt_of_le hmin (hbounded ((List.mem_tails _ _).1 htail) hcount)

end Seedling.Regex
