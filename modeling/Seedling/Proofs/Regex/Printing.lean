import Seedling.Proofs.Regex.ItemReader
import Seedling.Proofs.Regex.Term
import Seedling.Proofs.Text.Utf8

/-!
Reading back what is written. A text takes the reader from one level to another, and what it
adds there goes by its rank: an item, some items of a branch, or branches. Each way of building
a term keeps this, so that the expression that is read has the language of the term.
-/

namespace Seedling.Regex

open Text (encoded encoded_append encoded_eq_map toNat_of_mem_toDigits)

/-! ### Reading bytes and classes -/

section Bytes

variable (style : Style)

theorem toNat_digit_lt {n : Nat} (hn : n < 16) : (style.digit n).toNat < 128 := by
  have hdigit : ∀ upper : Bool, ∀ n < 16,
      (if upper then n.digitChar.toUpper else n.digitChar).toNat < 128 := by decide
  exact hdigit style.upper n hn

theorem hexValue_digit {n : Nat} (hn : n < 16) : hexValue (style.digit n).toUInt8 = some n := by
  have hdigit : ∀ upper : Bool, ∀ n < 16,
      hexValue (if upper then n.digitChar.toUpper else n.digitChar).toUInt8 = some n := by decide
  exact hdigit style.upper n hn

/-- The bytes of an escape behind its backslash. -/
def Style.escapeTail (b : UInt8) : List UInt8 :=
  ['x'.toUInt8, (style.digit (b.toNat / 16)).toUInt8, (style.digit (b.toNat % 16)).toUInt8]

theorem encoded_byte (b : UInt8) : encoded (style.byte b) = '\\'.toUInt8 :: style.escapeTail b := by
  have hb := b.toNat_lt
  refine encoded_eq_map ?_
  simp only [Style.byte, List.forall_mem_cons, List.not_mem_nil, false_imp_iff,
    implies_true, and_true]
  exact ⟨by decide, by decide, toNat_digit_lt style (by omega), toNat_digit_lt style (by omega)⟩

theorem hexPair_digits (b : UInt8) :
    hexPair (style.digit (b.toNat / 16)).toUInt8 (style.digit (b.toNat % 16)).toUInt8 = some b := by
  have hb := b.toNat_lt
  have hhigh := hexValue_digit style (n := b.toNat / 16) (by omega)
  have hlow := hexValue_digit style (n := b.toNat % 16) (by omega)
  have hplus : isChar (style.digit (b.toNat / 16)).toUInt8 '+' = false := by
    rw [← Bool.not_eq_true]
    intro h
    rw [(isChar_iff (by decide)).1 h] at hhigh
    contradiction
  have hsum : (b.toNat / 16 * 16 + b.toNat % 16).toUInt8 = b := by
    rw [Nat.div_add_mod']
    exact UInt8.ofNat_toNat
  simp only [hexPair, hhigh, hlow, hplus, hsum, bind, Option.bind, pure]
  rfl

theorem escape_tail (inClass : Bool) (b : UInt8) (rest : List UInt8) :
    escape inClass (style.escapeTail b ++ rest) = .ok (.byte b, 3) := by
  rw [Style.escapeTail, List.cons_append, escape_hex]
  simp only [List.cons_append, hexPair_digits]

theorem single_tail (pos : Nat) (b : UInt8) (rest : List UInt8) :
    single pos '\\'.toUInt8 (style.escapeTail b ++ rest) = .ok (.byte b, 3) := by
  rw [single, if_pos (isChar_self (by decide)), escape_tail]

/-- The bytes of an item of a class behind its first. -/
def Style.spanTail : Span → List UInt8
  | .byte b => style.escapeTail b
  | .range lo hi _ => style.escapeTail lo ++ '-'.toUInt8 :: '\\'.toUInt8 :: style.escapeTail hi

theorem encoded_span (s : Span) : encoded (style.span s) = '\\'.toUInt8 :: style.spanTail s := by
  cases s with
  | byte b => exact encoded_byte style b
  | range lo hi _ =>
      rw [Style.span, encoded_append, encoded_byte, List.cons_append, Style.spanTail,
        ← encoded_byte]
      rfl

theorem classItem_span (pos : Nat) (s : Span) {rest : List UInt8} (hrest : ¬ StartsRange rest) :
    classItem pos '\\'.toUInt8 (style.spanTail s ++ rest) =
      .ok (s.contains, (style.spanTail s).length) := by
  rw [classItem_eq]
  cases s with
  | byte b =>
      have hopens : opensRange rest = false := by
        rw [← Bool.not_eq_true, opensRange_iff]
        exact hrest
      rw [Style.spanTail, single_tail]
      show (if opensRange rest then _ else _) = _
      rw [hopens]
      rfl
  | range lo hi hordered =>
      rw [Style.spanTail, List.append_assoc, single_tail, Except.bind, List.cons_append,
        List.cons_append,
        itemFrom_range rfl (by decide), single_tail]
      exact if_neg (UInt8.not_lt.2 hordered)

theorem not_startsRange {c : UInt8} {cs : List UInt8} (hc : c ≠ '-'.toUInt8) :
    ¬ StartsRange (c :: cs) := by
  rintro ⟨_, _, heq, -⟩
  exact hc (List.cons.inj heq).1

theorem classItems_spans (opened : Nat) (spans : List Span) (rest : List UInt8) (first : Bool)
    (hfirst : first = true → spans ≠ []) (set : UInt8 → Bool) (pos : Nat) :
    classItems opened first set pos (encoded (spans.flatMap style.span) ++ ']'.toUInt8 :: rest) =
      .ok (fun b => set b || spans.any (·.contains b),
        pos + (encoded (spans.flatMap style.span)).length + 1) := by
  induction spans generalizing first set pos with
  | nil =>
      cases first with
      | true => exact absurd rfl (hfirst rfl)
      | false =>
          rw [List.flatMap_nil, encoded, List.flatMap_nil, List.nil_append, classItems,
            if_pos (by decide)]
          simp
  | cons s spans ih =>
      have hbackslash : isChar '\\'.toUInt8 ']' = false := rfl
      have hnext : ¬ StartsRange (encoded (spans.flatMap style.span) ++ ']'.toUInt8 :: rest) := by
        cases spans with
        | nil => exact not_startsRange (by decide)
        | cons s' spans =>
            rw [List.flatMap_cons, encoded_append, encoded_span]
            exact not_startsRange (by decide)
      rw [List.flatMap_cons, encoded_append, encoded_span, List.append_assoc,
        List.cons_append, classItems,
        if_neg (by simp [hbackslash]), classItem_span style pos s hnext]
      dsimp only
      rw [List.drop_left, ih false (by simp)]
      simp only [List.any_cons, Bool.or_assoc, List.length_append, List.length_cons]
      congr 2
      omega

theorem characterClass_byteClass (c : ByteClass) :
    ∃ tail, encoded (style.byteClass c) = '['.toUInt8 :: tail ∧ ∀ opened rest,
      characterClass opened (tail ++ rest) =
        .ok (ofByteSet c.contains, opened + 1 + tail.length) := by
  have hitems := fun opened rest => classItems_spans style opened c.spans rest true
    (by simp [ByteClass.spans]) (fun _ => false)
  have hspans : ∀ rest, ∃ cs,
      encoded (c.spans.flatMap style.span) ++ rest = '\\'.toUInt8 :: cs := by
    intro rest
    rw [ByteClass.spans, List.flatMap_cons, encoded_append, encoded_span]
    exact ⟨_, rfl⟩
  have hclose : encoded [']'] = [']'.toUInt8] := rfl
  cases hnegated : c.negated with
  | true =>
      have hset : c.contains = fun b => !(false || c.spans.any (·.contains b)) := by
        funext b
        simp [ByteClass.contains, hnegated]
      refine ⟨'^'.toUInt8 :: (encoded (c.spans.flatMap style.span) ++ [']'.toUInt8]), ?_, ?_⟩
      · rw [Style.byteClass, hnegated, encoded_append, encoded_append, hclose]
        rfl
      · intro opened rest
        rw [List.cons_append, characterClass_cons, if_pos (isChar_self (by decide)),
          List.append_assoc, List.singleton_append, hitems, hset, List.length_cons,
          List.length_append]
        simp only [Except.map, List.length_singleton]
        congr 2
        omega
  | false =>
      have hset : c.contains = fun b => false || c.spans.any (·.contains b) := by
        funext b
        simp [ByteClass.contains, hnegated]
      refine ⟨encoded (c.spans.flatMap style.span) ++ [']'.toUInt8], ?_, ?_⟩
      · rw [Style.byteClass, hnegated, encoded_append, encoded_append, hclose]
        rfl
      · intro opened rest
        obtain ⟨cs, hcs⟩ := hspans (']'.toUInt8 :: rest)
        rw [List.append_assoc, List.singleton_append, hcs, characterClass_cons,
          if_neg (by decide), ← hcs, hitems, hset, List.length_append]
        rfl

end Bytes

/-! ### Reading levels -/

theorem Level.language_close (level : Level) : level.close.language =
    (level.branches.map language).sum + (level.items.reverse.map language).prod := by
  simp [Level.close, Level.branch]

section Reader

variable (pos : Nat) (level : Level) (outer : List (Nat × Level)) (rest : List UInt8)

theorem readFrom_bar : readFrom pos level outer ('|'.toUInt8 :: rest) =
    readFrom (pos + 1) level.branch outer rest := by
  rw [readFrom.eq_def]
  exact if_pos (by decide)

theorem readFrom_open : readFrom pos level outer ('('.toUInt8 :: rest) =
    readFrom (pos + 1) .empty ((pos, level) :: outer) rest := by
  rw [readFrom.eq_def]
  exact (if_neg (by decide)).trans (if_pos (by decide))

theorem readFrom_close (opened : Nat) (up : Level) :
    readFrom pos level ((opened, up) :: outer) (')'.toUInt8 :: rest) =
      readFrom (pos + 1) (up.push level.close) outer rest := by
  rw [readFrom.eq_def]
  exact (if_neg (by decide)).trans ((if_neg (by decide)).trans (if_pos (by decide)))

variable {pos level rest}

theorem readFrom_item {c : UInt8} {level' : Level} {n : Nat} (hc : c ∉ separators)
    (h : item pos level c rest = .ok (level', n)) :
    readFrom pos level outer (c :: rest) = readFrom (pos + 1 + n) level' outer (rest.drop n) := by
  have hother : ∀ x ∈ ['|', '(', ')'], isChar c x = false := by
    intro x hx
    refine isChar_eq_false ?_ ?_
    · fin_cases hx <;> decide
    · rintro rfl
      fin_cases hx <;> exact hc (by decide)
  rw [readFrom.eq_def]
  simp only [hother '|' (by simp), hother '(' (by simp), hother ')' (by simp),
    Bool.false_eq_true, if_false, h]

end Reader

/-- Reading a text takes the reader from one level to another, whatever comes after it. -/
def Carries (w : List Char) (level level' : Level) : Prop :=
  ∀ pos outer rest, readFrom pos level outer (encoded w ++ rest) =
    readFrom (pos + (encoded w).length) level' outer rest

namespace Carries

variable {v w : List Char} {level level' level'' : Level}

theorem append (hv : Carries v level level') (hw : Carries w level' level'') :
    Carries (v ++ w) level level'' := by
  intro pos outer rest
  rw [encoded_append, List.append_assoc, hv, hw, List.length_append, Nat.add_assoc]

theorem bar : Carries ['|'] level level.branch := by
  intro pos outer rest
  exact readFrom_bar pos level outer rest

theorem group (hw : Carries w .empty level') :
    Carries ('(' :: w ++ [')']) level (level.push level'.close) := by
  intro pos outer rest
  have hencoded : encoded ('(' :: w ++ [')']) = '('.toUInt8 :: (encoded w ++ [')'.toUInt8]) := by
    rw [List.cons_append, ← List.singleton_append, encoded_append, encoded_append]
    rfl
  rw [hencoded, List.cons_append, List.append_assoc, List.singleton_append, readFrom_open, hw,
    readFrom_close]
  simp only [List.length_cons, List.length_append, List.length_nil]
  congr 1
  omega

theorem item {c : UInt8} {tail : List UInt8} (hw : encoded w = c :: tail) (hc : c ∉ separators)
    (h : ∀ pos rest, Regex.item pos level c (tail ++ rest) = .ok (level', tail.length)) :
    Carries w level level' := by
  intro pos outer rest
  rw [hw, List.cons_append, readFrom_item outer hc (h pos rest), List.drop_left, List.length_cons,
    Nat.add_assoc, Nat.add_comm 1]

theorem atom {c : UInt8} {tail : List UInt8} {r : Regex} (hw : encoded w = c :: tail)
    (hc : c ∉ separators) (hsigns : c ∉ signs) (hbrace : c ≠ '\x7b'.toUInt8)
    (h : ∀ pos rest, Regex.atom pos c (tail ++ rest) = .ok (r, tail.length)) :
    Carries w level (level.push r) := by
  refine item hw hc fun pos rest => ?_
  cases hitems : level.items with
  | nil =>
      rw [item_nil hitems, h]
      rfl
  | cons last items =>
      rw [item_cons hitems, quantified_byte hsigns hbrace, Except.bind, h]
      rfl

theorem quantifier {c : UInt8} {tail : List UInt8} {r r' : Regex} (hw : encoded w = c :: tail)
    (hc : c ∉ separators)
    (h : ∀ pos rest, quantified pos r c (tail ++ rest) = .ok (some (r', tail.length))) :
    Carries w (level.push r) (level.push r') := by
  refine item hw hc fun pos rest => ?_
  rw [item_cons (show (level.push r).items = r :: level.items from rfl), h]
  rfl

end Carries

/-- What a text of some rank is to the reader: from rank 2 on one item, of rank 1 some items of
a branch, and of rank 0 whole branches and a last one that is still open. -/
def Denotes (w : List Char) (l : Language UInt8) : Nat → Prop
  | 0 => ∀ level : Level, level.items = [] → ∃ level', Carries w level level' ∧
      level'.close.language = (level.branches.map language).sum + l
  | 1 => ∃ rs : List Regex, (rs.map language).prod = l ∧
      ∀ level, Carries w level { level with items := rs.reverse ++ level.items }
  | _ + 2 => ∃ r : Regex, r.language = l ∧ ∀ level, Carries w level (level.push r)

namespace Denotes

variable {v w : List Char} {l m : Language UInt8}

theorem weaken {k : Nat} (h : Denotes w l (k + 1)) : Denotes w l k := by
  rcases k with _ | _ | k
  · obtain ⟨rs, hl, hcarries⟩ := h
    intro level hlevel
    refine ⟨_, hcarries level, ?_⟩
    rw [Level.language_close, ← hl]
    simp [hlevel]
  · obtain ⟨r, hl, hcarries⟩ := h
    exact ⟨[r], by simpa using hl, hcarries⟩
  · exact h

theorem of_le {j k : Nat} (hle : j ≤ k) (h : Denotes w l k) : Denotes w l j := by
  induction hle with
  | refl => exact h
  | step _ ih => exact ih h.weaken

theorem group (h : Denotes w l 0) : Denotes ('(' :: w ++ [')']) l 3 := by
  obtain ⟨level', hcarries, hl⟩ := h .empty rfl
  refine ⟨level'.close, ?_, fun level => hcarries.group⟩
  rw [hl]
  exact zero_add l

theorem operand {style : Style} {least rank : Nat} (hleast : least ≤ 3) (h : Denotes w l rank) :
    Denotes (style.operand least rank w) l least := by
  rw [Style.operand]
  split
  · rename_i hbare
    refine h.of_le (Nat.le_trans ?_ hbare)
    rw [Style.bareFrom]
    split
    · exact Nat.le_refl least
    · exact hleast
  · exact (h.of_le (Nat.zero_le rank)).group.of_le hleast

theorem byte (style : Style) (b : UInt8) : Denotes (style.byte b) {[b]} 3 := by
  refine ⟨.literal [b], rfl, fun level => ?_⟩
  refine Carries.atom (encoded_byte style b) (by decide) (by decide) (by decide) fun pos rest => ?_
  rw [Regex.atom, if_neg (by decide), if_neg (by decide), if_pos (by decide), escape_tail]
  rfl

theorem set (style : Style) (s : UInt8 → Bool) :
    Denotes (style.byteClass (style.classOf s)) {w | ∃ b, s b = true ∧ w = [b]} 3 := by
  obtain ⟨tail, hencoded, hclass⟩ := characterClass_byteClass style (style.classOf s)
  have hset : (style.classOf s).contains = s := funext (style.contains_classOf s)
  refine ⟨ofByteSet s, Set.ext fun w => mem_language_ofByteSet, fun level => ?_⟩
  refine Carries.atom hencoded (by decide) (by decide) (by decide) fun pos rest => ?_
  rw [Regex.atom, if_pos (by decide), hclass, hset]
  exact congrArg (fun n => Except.ok (ofByteSet s, n)) (Nat.add_sub_cancel_left ..)

theorem concat (hv : Denotes v l 1) (hw : Denotes w m 1) : Denotes (v ++ w) (l * m) 1 := by
  obtain ⟨rs, hl, hcarries⟩ := hv
  obtain ⟨rs', hm, hcarries'⟩ := hw
  refine ⟨rs ++ rs', by simp [hl, hm], fun level => ?_⟩
  rw [List.reverse_append, List.append_assoc]
  exact (hcarries level).append (hcarries' _)

theorem alternation (hv : Denotes v l 0) (hw : Denotes w m 0) :
    Denotes (v ++ '|' :: w) (l + m) 0 := by
  intro level hlevel
  obtain ⟨left, hcarries, hl⟩ := hv level hlevel
  obtain ⟨right, hcarries', hm⟩ := hw left.branch rfl
  refine ⟨right, hcarries.append (Carries.bar.append hcarries'), ?_⟩
  have hbranches : (left.branch.branches.map language).sum = left.close.language := by
    simp [Level.language_close, Level.branch, add_comm]
  rw [hm, hbranches, hl, add_assoc]

end Denotes

/-! ### Quantifiers -/

theorem encoded_toDigits (n : Nat) :
    Digits (encoded (Nat.toDigits 10 n)) ∧ numeral 10 (encoded (Nat.toDigits 10 n)) = n := by
  have hdigit : ∀ c ∈ Nat.toDigits 10 n, 48 ≤ c.toNat ∧ c.toNat ≤ 57 :=
    fun _ hc => toNat_of_mem_toDigits hc
  have hbyte : ∀ c ∈ Nat.toDigits 10 n, c.toUInt8.toNat = c.toNat := fun c hc =>
    toNat_toUInt8 (by have := hdigit c hc; omega)
  rw [encoded_eq_map fun c hc => by have := hdigit c hc; omega]
  refine ⟨⟨?_, ?_⟩, ?_⟩
  · simp
  · simp only [List.mem_map, forall_exists_index, and_imp, forall_apply_eq_imp_iff₂]
    intro c hc
    simpa [isDigit, isBetween, hbyte c hc] using hdigit c hc
  · rw [numeral, List.foldl_map]
    conv => rhs; rw [← Nat.ofDigitChars_ten_toDigits (n := n), Nat.ofDigitChars_eq_foldl]
    refine List.foldl_ext _ _ _ fun k c hc => ?_
    rw [digitValue, hbyte c hc, Nat.mul_comm]

def Quantity.apply (r : Regex) : Quantity → Regex
  | .star => r.star
  | .plus => r.plus
  | .optional => r.optional
  | .exactly n _ => r.repeat n (some n)
  | .atLeast min _ => r.repeat min none
  | .between min max _ _ => r.repeat min (some max)

theorem Quantity.mem_language_apply {r : Regex} {q : Quantity} {w : List UInt8} :
    w ∈ (q.apply r).language ↔ ∃ k, q.Allows k ∧ w ∈ r.language ^ k := by
  cases q with
  | star =>
      have hstar := mem_pow_mul_kstar (l := r.language) (w := w) (n := 0)
      simpa [Quantity.apply, Quantity.Allows, language] using hstar
  | plus =>
      have hplus := mem_pow_mul_kstar (l := r.language) (w := w) (n := 1)
      simpa [Quantity.apply, Quantity.Allows, language_plus] using hplus
  | optional =>
      have hoptional := mem_add_one_pow (l := r.language) (w := w) (n := 1)
      simpa [Quantity.apply, Quantity.Allows, language_optional] using hoptional
  | exactly n =>
      simp only [Quantity.apply, mem_language_repeat, Quantity.Allows,
        Option.some.injEq, forall_eq']
      simp only [← and_assoc, Nat.le_antisymm_iff, and_comm]
  | atLeast min => simp [Quantity.apply, mem_language_repeat, Quantity.Allows]
  | between min max => simp [Quantity.apply, mem_language_repeat, Quantity.Allows, and_assoc]

theorem lower_toDigits {n : Nat} (hn : n < UInt64.size) :
    Dialect.lenient.lower (encoded (Nat.toDigits 10 n)) = true := by
  simpa [Dialect.lenient, encoded_toDigits n] using hn

theorem quantified_comma {min : Nat} (hmin : min < UInt64.size) {upper : List UInt8}
    {max : Option Nat} (hupper : ∀ b ∈ upper, isDigit b = true) (hmax : decimal upper = max)
    (hle : ∀ m, max = some m → min ≤ m) (pos : Nat) (r : Regex) (rest : List UInt8) :
    quantified pos r '\x7b'.toUInt8
        (encoded (Nat.toDigits 10 min) ++ ','.toUInt8 :: (upper ++ ['\x7d'.toUInt8]) ++ rest) =
      .ok (some (r.repeat min max,
        (encoded (Nat.toDigits 10 min) ++ ','.toUInt8 :: (upper ++ ['\x7d'.toUInt8])).length)) := by
  obtain ⟨hdigits, hvalue⟩ := encoded_toDigits min
  have hcount := count_comma hdigits (lower_toDigits hmin) hupper rest
  have hordered : max.all (min ≤ ·) = true := by
    cases max with
    | none => rfl
    | some m => simpa using hle m rfl
  rw [hvalue, hmax] at hcount
  rw [List.append_assoc, List.cons_append, List.append_assoc, List.singleton_append,
    quantified_count_some hcount, hordered]
  simp [Nat.add_assoc]

theorem Quantity.quantified_print (q : Quantity) (r : Regex) :
    ∃ c tail, encoded q.print = c :: tail ∧ c ∉ separators ∧ ∀ pos rest,
      quantified pos r c (tail ++ rest) = .ok (some (q.apply r, tail.length)) := by
  cases q with
  | star => exact ⟨'*'.toUInt8, [], rfl, by decide, fun _ _ => rfl⟩
  | plus => exact ⟨'+'.toUInt8, [], rfl, by decide, fun _ _ => rfl⟩
  | optional => exact ⟨'?'.toUInt8, [], rfl, by decide, fun _ _ => rfl⟩
  | exactly n small =>
      obtain ⟨hdigits, hvalue⟩ := encoded_toDigits n
      refine ⟨'\x7b'.toUInt8, encoded (Nat.toDigits 10 n) ++ ['\x7d'.toUInt8], ?_, by decide, ?_⟩
      · rw [Quantity.print, encoded_append]
        rfl
      · intro pos rest
        have hcount := count_exactly hdigits (lower_toDigits small) rest
        rw [List.append_assoc, List.singleton_append, quantified_count_some hcount, hvalue]
        simp [Quantity.apply]
  | atLeast min small =>
      refine ⟨'\x7b'.toUInt8,
        encoded (Nat.toDigits 10 min) ++ ','.toUInt8 :: ([] ++ ['\x7d'.toUInt8]),
        ?_, by decide, fun pos rest => ?_⟩
      · rw [Quantity.print, encoded_append]
        rfl
      · exact quantified_comma small (List.forall_mem_nil _)
          (show decimal [] = none from rfl) (by simp)
          pos r rest
  | between min max ordered small =>
      obtain ⟨hdigits, hvalue⟩ := encoded_toDigits max
      have hdecimal := decimal_eq_some hdigits.1 (lower_toDigits small)
      rw [hvalue] at hdecimal
      refine ⟨'\x7b'.toUInt8,
        encoded (Nat.toDigits 10 min) ++ ','.toUInt8 ::
          (encoded (Nat.toDigits 10 max) ++ ['\x7d'.toUInt8]),
        ?_, by decide, fun pos rest => ?_⟩
      · rw [Quantity.print, encoded_append, encoded_append, List.append_assoc]
        rfl
      · exact quantified_comma (Nat.lt_of_le_of_lt ordered small) hdigits.2 hdecimal
          (by simpa using ordered)
          pos r rest

/-- A quantifier makes an item of the item before it. -/
theorem Denotes.quantified {w : List Char} {l : Language UInt8} (h : Denotes w l 2) (q : Quantity) :
    Denotes (w ++ q.print) {w | ∃ k, q.Allows k ∧ w ∈ l ^ k} 2 := by
  obtain ⟨r, rfl, hcarries⟩ := h
  obtain ⟨c, tail, hencoded, hc, hquantified⟩ := q.quantified_print r
  refine ⟨q.apply r, Set.ext fun w => Quantity.mem_language_apply, fun level => ?_⟩
  exact (hcarries level).append (.quantifier hencoded hc hquantified)

/-! ### Terms are read back -/

theorem Term.denotes (style : Style) (t : Term) : Denotes (t.chars style) t.language t.rank := by
  induction t with
  | byte b => exact .byte style b
  | set s => exact .set style s
  | concat a b iha ihb => exact (iha.operand (by decide)).concat (ihb.operand (by decide))
  | alternation a b iha ihb => exact (iha.operand (by decide)).alternation (ihb.operand (by decide))
  | quantified a q ih => exact (ih.operand (by decide)).quantified q

/-- A term that is written in any style is read back as an expression with its language. -/
theorem parse_print (style : Style) (t : Term) :
    ∃ r, parse (t.print style) = .ok r ∧ r.language = t.language := by
  obtain ⟨level, hcarries, hlanguage⟩ := (t.denotes style).of_le (Nat.zero_le _) .empty rfl
  have hread : readFrom 0 .empty [] (Text.bytes (t.print style)) = .ok level.close := by
    have hend := hcarries 0 [] []
    rw [List.append_nil] at hend
    rw [Term.print, Text.bytes_ofList]
    exact hend.trans (by rw [readFrom])
  refine ⟨level.close, ?_, ?_⟩
  · rw [parse, hread]
  · rw [hlanguage]
    exact zero_add _

end Seedling.Regex
