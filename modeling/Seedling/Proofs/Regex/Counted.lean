import Seedling.Proofs.Regex.Acceptance
import Seedling.Proofs.Regex.Lookahead

/-!
Repetition with bounds. An atom that is followed by a count stands for its powers within the
bounds, but a bound is only read if it has 64 bits at most. Where the lower one does not fit,
the count is text like any other; where the upper one does not, there is none.
-/

namespace Seedling.Regex

/-! ### Bounds that are too large -/

namespace Count

variable {d : Dialect} {min : Nat} {max : Option Nat} {cs rest : List UInt8}

theorem count_eq_none (h : Count d min max cs rest) (hmin : UInt64.size ≤ min) :
    count cs = none := by
  obtain ⟨ds, b, tail, hds, hb, rfl, rfl⟩ : ∃ ds b tail, Digits ds ∧ isDigit b = false ∧
      min = numeral 10 ds ∧ cs = ds ++ b :: tail := by
    cases h with
    | exactly hds | atLeast hds | between hds => exact ⟨_, _, _, hds, rfl, rfl, rfl⟩
  have hlower : decimal ds = none := by
    rw [decimal_eq hds.1, Option.filter_some, if_neg (by simpa using hmin)]
  rw [count]
  dsimp only
  rw [takeWhile_digits hds.2 hb, hlower]

theorem not_opensCount (h : Count d min max cs rest) (hmin : UInt64.size ≤ min) :
    ¬ OpensCount .lenient ('\x7b'.toUInt8 :: cs) := by
  rintro ⟨_, min', max', rest', heq, hcount⟩
  cases heq
  obtain ⟨n, hread, -⟩ := count_complete hcount
  cases hread.symm.trans (h.count_eq_none hmin)

end Count

/-- The bytes that can be something else than literals. -/
def special : List UInt8 := '\x7b'.toUInt8 :: '.'.toUInt8 :: reserved

theorem not_mem_reserved {b : UInt8} (hb : b ∉ special) : b ∉ reserved :=
  List.not_mem_of_not_mem_cons (List.not_mem_of_not_mem_cons hb)

theorem Digits.not_special {ds : List UInt8} (hds : Digits ds) : ∀ b ∈ ds, b ∉ special := by
  have hspecial : special.all (!isDigit ·) = true := by decide
  intro b hb h
  have hdigit := List.all_eq_true.1 hspecial b h
  rw [hds.2 b hb] at hdigit
  contradiction

theorem Count.exists_literals {d : Dialect} {min : Nat} {max : Option Nat} {cs rest : List UInt8}
    (h : Count d min max cs rest) : ∃ bs, cs = bs ++ rest ∧ ∀ b ∈ bs, b ∉ special := by
  have hcomma : ','.toUInt8 ∉ special := by decide
  have hbrace : '\x7d'.toUInt8 ∉ special := by decide
  cases h with
  | @exactly ds rest hds =>
      refine ⟨ds ++ ['\x7d'.toUInt8], by simp, ?_⟩
      exact List.forall_mem_append.2 ⟨hds.not_special, by simpa using hbrace⟩
  | @atLeast ds rest hds =>
      refine ⟨ds ++ [','.toUInt8, '\x7d'.toUInt8], by simp, ?_⟩
      exact List.forall_mem_append.2 ⟨hds.not_special, by simpa using ⟨hcomma, hbrace⟩⟩
  | @between ds es rest hds _ hes =>
      refine ⟨ds ++ ','.toUInt8 :: (es ++ ['\x7d'.toUInt8]), by simp, ?_⟩
      refine List.forall_mem_append.2 ⟨hds.not_special, List.forall_mem_cons.2 ⟨hcomma, ?_⟩⟩
      exact List.forall_mem_append.2 ⟨hes.not_special, by simpa using hbrace⟩

/-! ### Phrases of the strict dialect -/

section Strict

variable {c : UInt8} {cs mid rest : List UInt8}

theorem sequenceTail_byte (hc : c ∉ reserved) (hopens : ¬ OpensCount .lenient (c :: cs))
    (h : SequenceTail .lenient true cs rest) : SequenceTail .lenient true (c :: cs) rest := by
  obtain ⟨mid, hquantifiers, hrest⟩ := h
  exact ⟨_, .nil hopens, .cons (.byte hc) hquantifiers hrest⟩

theorem sequenceTail_literals {bs : List UInt8} (hbs : ∀ b ∈ bs, b ∉ special)
    (h : SequenceTail .lenient true cs rest) : SequenceTail .lenient true (bs ++ cs) rest := by
  induction bs with
  | nil => exact h
  | cons b bs ih =>
      obtain ⟨hb, hbs⟩ := List.forall_mem_cons.1 hbs
      have hopens : ¬ OpensCount .lenient (b :: (bs ++ cs)) :=
        fun h => List.ne_of_not_mem_cons hb (opensCount_iff.1 h).1
      exact sequenceTail_byte (not_mem_reserved hb) hopens (ih hbs)

/-- The quantifiers of an atom are quantifiers in the lenient dialect too, or text where they
are counts that are too large for it. -/
theorem Quantifiers.sequenceTail (h : Quantifiers .strict cs mid)
    (hrest : Spells .lenient .sequence mid rest) : SequenceTail .lenient true cs rest := by
  induction h with
  | nil hopens =>
      refine ⟨_, .nil fun hlenient => hopens ?_, hrest⟩
      obtain ⟨tail, min, max, rest, heq, hcount⟩ := hlenient
      exact ⟨tail, min, max, rest, heq, hcount.strict⟩
  | cons hquantifier _ ih =>
      obtain ⟨stop, hquantifiers, hsequence⟩ := ih hrest
      cases hquantifier with
      | sign hc => exact ⟨stop, .cons (.sign hc) hquantifiers, hsequence⟩
      | @count min max _ _ hcount hordered =>
          rcases Nat.lt_or_ge min UInt64.size with hmin | hmin
          · exact ⟨stop, .cons (.count (hcount.lenient hmin) hordered) hquantifiers, hsequence⟩
          · have hopens := hcount.not_opensCount hmin
            obtain ⟨bs, rfl, hbs⟩ := hcount.exists_literals
            exact sequenceTail_byte (by decide) hopens
              (sequenceTail_literals hbs ⟨stop, hquantifiers, hsequence⟩)

theorem keepsHex_strict (cs : List UInt8) : KeepsHex .strict .lenient cs := by
  intro a b _ _ v hv
  have ha : a ≠ '+'.toUInt8 := by
    rintro rfl
    contradiction
  exact (if_neg ha).trans hv

/-- What is written in the strict dialect is written in the lenient one. -/
theorem Spells.lenient {symbol : Symbol} (h : Spells .strict symbol cs rest) :
    Spells .lenient symbol cs rest := by
  induction h with
  | last _ ih => exact .last ih
  | more _ _ ih ih' => exact .more ih ih'
  | nil => exact .nil
  | cons _ hquantifiers _ ih ih' =>
      exact sequence_iff.2 (.inr ⟨_, ih, hquantifiers.sequenceTail ih'⟩)
  | group _ ih => exact .group ih
  | bracket hclass => exact .bracket ((keepsHex_strict _).bracket hclass)
  | any => exact .any
  | escape hescape => exact .escape ((keepsHex_strict _).escape hescape)
  | byte hc => exact .byte hc

end Strict

/-! ### An atom and a count -/

section Counted

variable {pos min : Nat} {max : Option Nat} {r : Regex} {tail : List UInt8}

/-- A count that fits repeats the atom before it. An upper bound that is too large is dropped. -/
theorem readFrom_count (hcount : Count .strict min max tail []) (hmin : min < UInt64.size)
    (hordered : ∀ m, max = some m → min ≤ m) :
    readFrom pos (Level.empty.push r) [] ('\x7b'.toUInt8 :: tail) =
      .ok (r.repeat min (max.filter (· < UInt64.size))) := by
  obtain ⟨n, hread, -, hend⟩ := count_complete (hcount.lenient hmin)
  have hall : (max.filter (· < UInt64.size)).all (min ≤ ·) = true := by
    simp only [Option.all_eq_true, decide_eq_true_eq]
    exact fun m hm => hordered m (Option.filter_eq_some_iff.1 hm).1
  have hitem : item pos (Level.empty.push r) '\x7b'.toUInt8 tail =
      .ok (Level.empty.push (r.repeat min (max.filter (· < UInt64.size))), n) := by
    rw [item_cons (show (Level.empty.push r).items = r :: [] from rfl),
      quantified_count_some hread, if_pos hall]
    rfl
  rw [readFrom_item [] (by decide) hitem, ← hend, readFrom, Level.close_push]

theorem readFrom_count_error {m : Nat} (hcount : Count .strict min (some m) tail [])
    (hmin : min < UInt64.size)
    (hm : m < min) : readFrom pos (Level.empty.push r) [] ('\x7b'.toUInt8 :: tail) =
      .error (pos, .boundsOutOfOrder min m) := by
  obtain ⟨n, hread, -⟩ := count_complete (hcount.lenient hmin)
  have hfits : (some m).filter (· < UInt64.size) = some m := by
    rw [Option.filter_some, if_pos (decide_eq_true (Nat.lt_trans hm hmin))]
  rw [hfits] at hread
  have hitem : item pos (Level.empty.push r) '\x7b'.toUInt8 tail =
      .error (pos, .boundsOutOfOrder min m) := by
    rw [item_cons (show (Level.empty.push r).items = r :: [] from rfl), quantified_count_some hread,
      if_neg (by simpa using hm)]
    rfl
  rw [readFrom.eq_def]
  simp +decide only [hitem, if_false]

theorem atom_literal (pos : Nat) {b : UInt8} (hb : b ∉ '.'.toUInt8 :: reserved) (cs : List UInt8) :
    atom pos b cs = .ok (.literal [b], 0) := by
  have hother : ∀ {x : Char}, x.toUInt8 ∈ '.'.toUInt8 :: reserved → x.toNat < 256 →
      isChar b x = false :=
    fun hx hlt => isChar_eq_false hlt fun heq => hb (heq ▸ hx)
  simp (disch := decide) only [atom, hother, Bool.or_self, Bool.false_eq_true, if_false]

theorem item_literal {b : UInt8} (hb : b ∉ special) (level : Level) (cs : List UInt8) :
    item pos level b cs = .ok (level.push (.literal [b]), 0) := by
  have hatom := atom_literal pos (List.not_mem_of_not_mem_cons hb) cs
  have hsigns : b ∉ signs := fun h => not_mem_reserved hb (mem_reserved.2 (.inr (.inr (.inr h))))
  rcases hitems : level.items with _ | ⟨last, items⟩
  · rw [item_nil hitems, hatom]
    rfl
  · rw [item_cons hitems, quantified_byte hsigns (List.ne_of_not_mem_cons hb), Except.bind, hatom]
    rfl

theorem language_literal_cons (b : UInt8) (bs : List UInt8) :
    (literal (b :: bs)).language = (literal [b]).language * (literal bs).language :=
  language_literal_append [b] bs

theorem exists_readFrom_literals {bs : List UInt8} (hbs : ∀ b ∈ bs, b ∉ special) (pos : Nat)
    (level : Level) (hlevel : level.branches = []) : ∃ s, readFrom pos level [] bs = .ok s ∧
      s.language = (level.items.reverse.map language).prod * (literal bs).language := by
  induction bs generalizing pos level with
  | nil =>
      have hone : (literal []).language = 1 := rfl
      refine ⟨level.close, by rw [readFrom], ?_⟩
      rw [Level.language_close, hlevel, hone, mul_one]
      exact zero_add _
  | cons b bs ih =>
      obtain ⟨hb, hbs⟩ := List.forall_mem_cons.1 hbs
      have hc : b ∉ separators := fun h => not_mem_reserved hb (mem_reserved.2 (.inl h))
      obtain ⟨s, hread, hlanguage⟩ := ih hbs (pos + 1) (level.push (.literal [b])) hlevel
      refine ⟨s, ?_, ?_⟩
      · rw [readFrom_item [] hc (item_literal hb level bs)]
        exact hread
      · rw [hlanguage, language_literal_cons]
        simp [Level.push, mul_assoc]

/-- A count whose lower bound is too large is text after the atom before it. -/
theorem exists_readFrom_brace (hcount : Count .strict min max tail []) (hmin : UInt64.size ≤ min) :
    ∃ s, readFrom pos (Level.empty.push r) [] ('\x7b'.toUInt8 :: tail) = .ok s ∧
      s.language = r.language * (literal ('\x7b'.toUInt8 :: tail)).language := by
  have hitem : item pos (Level.empty.push r) '\x7b'.toUInt8 tail =
      .ok ((Level.empty.push r).push (.literal ['\x7b'.toUInt8]), 0) := by
    rw [item_cons (show (Level.empty.push r).items = r :: [] from rfl),
      quantified_count_none (hcount.count_eq_none hmin), Except.bind, atom_literal pos (by decide)]
    rfl
  obtain ⟨bs, htail, hbs⟩ := hcount.exists_literals
  obtain rfl : tail = bs := by rw [htail, List.append_nil]
  obtain ⟨s, hread, hlanguage⟩ := exists_readFrom_literals hbs (pos + 1)
    ((Level.empty.push r).push (.literal ['\x7b'.toUInt8])) rfl
  refine ⟨s, ?_, ?_⟩
  · rw [readFrom_item [] (by decide) hitem]
    exact hread
  · rw [hlanguage, language_literal_cons]
    simp [Level.push, Level.empty, mul_assoc]

end Counted

/-- A text is a count with these bounds, as they are written. -/
def IsCount (text : String) (min : Nat) (max : Option Nat) : Prop :=
  ∃ tail, Text.bytes text = '\x7b'.toUInt8 :: tail ∧ Count .strict min max tail []

/-- An atom of either dialect and a count stand for the powers of the atom within the bounds, of
which the upper one only counts if it is below `2 ^ 64`. Bounds that are out of order are a
fault at the brace, and where the lower one is not below `2 ^ 64` the count is text. -/
theorem counted_atom_language {x count : String} {min : Nat} {max : Option Nat}
    (hatom : Spells .strict .atom (Text.bytes x) [] ∨ Spells .lenient .atom (Text.bytes x) [])
    (hcount : IsCount count min max) :
    ∃ r, parse x = .ok r ∧
      (min < UInt64.size → (∀ m, max = some m → min ≤ m) → ∃ s, parse (x ++ count) = .ok s ∧
        ∀ w, w ∈ s.language ↔
          ∃ k, min ≤ k ∧ (∀ m, max = some m → m < UInt64.size → k ≤ m) ∧ w ∈ r.language ^ k) ∧
      (min < UInt64.size → ∀ m, max = some m → m < min → parse (x ++ count) =
        .error ⟨x ++ count, (Text.bytes x).length, .boundsOutOfOrder min m⟩) ∧
      (UInt64.size ≤ min → ∃ s, parse (x ++ count) = .ok s ∧
        s.language = r.language * {Text.bytes count}) := by
  obtain ⟨tail, hbytes, hcount⟩ := hcount
  obtain ⟨r, hread, hbrace⟩ := exists_readFrom_atom (hatom.elim Spells.lenient id)
  have hstart : readFrom 0 .empty [] (Text.bytes (x ++ count)) =
      readFrom (Text.bytes x).length (Level.empty.push r) [] ('\x7b'.toUInt8 :: tail) := by
    rw [Text.bytes_append, hbytes, hbrace]
  refine ⟨r, by rw [parse, hread], fun hmin hordered => ?_, fun hmin m hm hlt => ?_, fun hmin => ?_⟩
  · refine ⟨_, by rw [parse, hstart, readFrom_count hcount hmin hordered], fun w => ?_⟩
    simp only [mem_language_repeat, Option.filter_eq_some_iff, decide_eq_true_eq, and_imp]
  · subst hm
    rw [parse, hstart, readFrom_count_error hcount hmin hlt]
  · obtain ⟨s, hs, hlanguage⟩ := exists_readFrom_brace hcount hmin
    refine ⟨s, by rw [parse, hstart, hs], ?_⟩
    rw [hlanguage, hbytes]
    rfl

/-- A group with two branches, twice or three times. -/
theorem counted_atom_language_group :
    Spells .strict .atom (Text.bytes "(a|b)") [] ∧ IsCount "\x7b2,3\x7d" 2 (some 3) ∧
      ∃ r s, parse "(a|b)" = .ok r ∧ parse "(a|b)\x7b2,3\x7d" = .ok s ∧
        ∀ w, w ∈ s.language ↔ ∃ k, 2 ≤ k ∧ k ≤ 3 ∧ w ∈ r.language ^ k := by
  have hopens : ∀ {c : UInt8} {cs : List UInt8}, c ≠ '\x7b'.toUInt8 →
      ¬ OpensCount .strict (c :: cs) :=
    fun hc h => hc (opensCount_iff.1 h).1
  have hatom : Spells .strict .atom (Text.bytes "(a|b)") [] := by
    have hbytes : Text.bytes "(a|b)" = ['(', 'a', '|', 'b', ')'].map Char.toUInt8 := by
      decide +kernel
    rw [hbytes]
    exact .group (.more (.cons (.byte (by decide)) (.nil (hopens (by decide))) .nil)
      (.last (.cons (.byte (by decide)) (.nil (hopens (by decide))) .nil)))
  have hcount : IsCount "\x7b2,3\x7d" 2 (some 3) :=
    ⟨['2', ',', '3', '\x7d'].map Char.toUInt8, by decide +kernel,
      @Count.between .strict ['2'.toUInt8] ['3'.toUInt8] [] (by decide) rfl (by decide)⟩
  obtain ⟨r, hr, hcounted, -⟩ := counted_atom_language (.inl hatom) hcount
  obtain ⟨s, hs, hlanguage⟩ := hcounted (by decide) (by simp)
  refine ⟨hatom, hcount, r, s, hr, hs, fun w => ?_⟩
  have hsmall : 3 < UInt64.size := by decide
  simpa [hsmall] using hlanguage w

theorem mem_language_literal_pow {b : UInt8} {k : Nat} {w : List UInt8} :
    w ∈ (literal [b]).language ^ k ↔ w = List.replicate k b := by
  induction k generalizing w with
  | zero => exact Iff.rfl
  | succ k ih =>
      rw [pow_succ, Language.mem_mul, List.replicate_succ']
      constructor
      · rintro ⟨u, hu, v, rfl, rfl⟩
        rw [ih.1 hu]
      · rintro rfl
        exact ⟨_, ih.2 rfl, [b], rfl, rfl⟩

/-- An upper bound that has more than 64 bits is dropped: the pattern has a word that the bound
rules out. -/
theorem counted_atom_unbounded :
    IsCount "\x7b0,18446744073709551616\x7d" 0 (some 18446744073709551616) ∧
      ∃ r s, parse "a" = .ok r ∧ parse "a\x7b0,18446744073709551616\x7d" = .ok s ∧
        ∃ w ∈ s.language, ∀ k ≤ 18446744073709551616, w ∉ r.language ^ k := by
  have hcount : IsCount "\x7b0,18446744073709551616\x7d" 0 (some 18446744073709551616) :=
    ⟨"0,18446744073709551616\x7d".toList.map Char.toUInt8, by decide +kernel,
      @Count.between .strict ['0'.toUInt8] ("18446744073709551616".toList.map Char.toUInt8) []
        (by decide) rfl
        (by decide)⟩
  have hlong (n : Nat) : List.replicate n 97 ∈ (star (literal [97])).language := by
    have hpow := mem_pow_mul_kstar (l := (literal [97]).language)
      (w := List.replicate n 97) (n := 0)
    rw [pow_zero, one_mul] at hpow
    exact hpow.2 ⟨n, Nat.zero_le n, mem_language_literal_pow.2 rfl⟩
  refine ⟨hcount, literal [97], star (literal [97]), by decide +kernel, by decide +kernel,
    List.replicate (18446744073709551616 + 1) 97, hlong _, fun k hk hmem => ?_⟩
  have hlength := congrArg List.length (mem_language_literal_pow.1 hmem)
  simp only [List.length_replicate] at hlength
  omega

end Seedling.Regex
