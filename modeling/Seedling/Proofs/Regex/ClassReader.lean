import Mathlib.Tactic.FinCases
import Seedling.Proofs.Regex.Notation

/-!
Escapes and classes are read as they are written in the lenient dialect of the notation. Each
step of the reader is related to a phrase: where the step succeeds the phrase is there and ends
where the step does, and where the step fails there is no such phrase, and the fault is at an
offset in what was read.
-/

namespace Seedling.Regex

/-! ### Bytes -/

theorem toNat_toUInt8 {c : Char} (hc : c.toNat < 256) : c.toUInt8.toNat = c.toNat := by
  rw [Char.toUInt8, UInt32.toNat_toUInt8]
  exact Nat.mod_eq_of_lt hc

theorem isChar_iff {b : UInt8} {c : Char} (hc : c.toNat < 256) :
    isChar b c = true ↔ b = c.toUInt8 := by
  rw [isChar, decide_eq_true_iff, ← UInt8.toNat_inj, toNat_toUInt8 hc]

theorem isChar_self {c : Char} (hc : c.toNat < 256) : isChar c.toUInt8 c = true :=
  (isChar_iff hc).2 rfl

theorem isChar_eq_false {b : UInt8} {c : Char} (hc : c.toNat < 256) (h : b ≠ c.toUInt8) :
    isChar b c = false := by
  rw [← Bool.not_eq_true, isChar_iff hc]
  exact h

theorem isLetter_of_isOctal {b : UInt8} (h : isOctal b = true) : isLetter b = false := by
  simp only [isOctal, isBetween, isLetter, Char.reduceToNat, Bool.and_eq_true, decide_eq_true_eq,
    Bool.or_eq_false_iff, Bool.and_eq_false_iff, decide_eq_false_iff_not] at h ⊢
  omega

theorem isDigit_of_isOctal {b : UInt8} (h : isOctal b = true) : isDigit b = true := by
  simp only [isOctal, isDigit, isBetween, Char.reduceToNat, Bool.and_eq_true,
    decide_eq_true_eq] at h ⊢
  omega

theorem isControl_iff {b : UInt8} : (isLetter b || isBetween b '@' '_') = true ↔
    isLetter b = true ∨ b ∈ ['@', '[', '\\', ']', '^', '_'].map Char.toUInt8 := by
  have hbyte : ∀ c : Char, c.toNat < 256 → (b = c.toUInt8 ↔ b.toNat = c.toNat) := fun c hc => by
    rw [← UInt8.toNat_inj, toNat_toUInt8 hc]
  simp (disch := decide) only [isLetter, isBetween, List.map_cons, List.map_nil, List.mem_cons,
    List.not_mem_nil, or_false, hbyte, Char.reduceToNat, Bool.or_eq_true, Bool.and_eq_true,
    decide_eq_true_eq]
  omega

/-! ### Escapes -/

def Escaped.byte? : Escaped → Option UInt8
  | .byte b => some b
  | .set _ => none

theorem hexPair_eq (a b : UInt8) : hexPair a b = Dialect.lenient.hex a b := by
  rw [hexPair, Dialect.lenient]
  dsimp only [Dialect.strict]
  by_cases ha : a = '+'.toUInt8
  · rw [if_pos ha, (isChar_iff (by decide)).2 ha]
    cases hexValue b <;> rfl
  · rw [if_neg ha, isChar_eq_false (by decide) ha]
    cases hexValue a <;> cases hexValue b <;> rfl

theorem octalTail_append {tail rest : List UInt8} (hlength : tail.length ≤ 2)
    (hoctal : ∀ b ∈ tail, isOctal b = true)
    (hrest : tail.length < 2 → ∀ b ∈ rest.head?, isOctal b = false) :
    octalTail (tail ++ rest) = tail := by
  match tail, rest with
  | [], [] => rfl
  | [], b :: _ => simp [octalTail, hrest (by decide) b rfl]
  | [a], [] => simp [octalTail, hoctal]
  | [a], b :: _ => simp [octalTail, hoctal, hrest (Nat.lt_succ_self 1) b rfl]
  | [a, b], rest => simp [octalTail, hoctal]

/-- The digits that continue an escape are as many as can be. -/
theorem octalTail_spec (cs : List UInt8) :
    ∃ rest, cs = octalTail cs ++ rest ∧ (octalTail cs).length ≤ 2 ∧
      (∀ b ∈ octalTail cs, isOctal b = true) ∧
        ((octalTail cs).length < 2 → ∀ b ∈ rest.head?, isOctal b = false) := by
  match cs with
  | [] => exact ⟨[], by simp [octalTail]⟩
  | [a] =>
      cases ha : isOctal a with
      | false => exact ⟨[a], by simp [octalTail, ha]⟩
      | true => exact ⟨[], by simp [octalTail, ha]⟩
  | a :: b :: rest =>
      cases ha : isOctal a with
      | false => exact ⟨a :: b :: rest, by simp [octalTail, ha]⟩
      | true =>
          cases hb : isOctal b with
          | false => exact ⟨b :: rest, by simp [octalTail, ha, hb]⟩
          | true => exact ⟨rest, by simp [octalTail, ha, hb]⟩

theorem escape_letter {c : Char} {v : Option UInt8} (h : (c, v) ∈ letterEscapes) (inClass : Bool)
    (rest : List UInt8) :
    ∃ e, escape inClass (c.toUInt8 :: rest) = .ok (e, 1) ∧ e.byte? = v := by
  fin_cases h <;> exact ⟨_, rfl, rfl⟩

theorem escape_of_not_isLetter {c : UInt8} (hc : isLetter c = false) (inClass : Bool)
    (rest : List UInt8) : escape inClass (c :: rest) =
      if isOctal c then
        if numeral 8 (c :: octalTail rest) < 256 then
          .ok (.byte (numeral 8 (c :: octalTail rest)).toUInt8, (octalTail rest).length + 1)
        else .error .octalAboveByte
      else if isDigit c then .error (.unknownEscape c)
      else .ok (.byte c, 1) := by
  have hne : ∀ {x : Char}, isLetter x.toUInt8 = true → x.toNat < 256 → isChar c x = false := by
    intro x hx hlt
    refine isChar_eq_false hlt ?_
    rintro rfl
    cases hx.symm.trans hc
  simp (disch := decide) only [escape, hne, hc, Bool.and_false, Bool.false_or,
    Bool.false_eq_true, if_false]
  rfl

theorem escape_hex (inClass : Bool) (rest : List UInt8) :
    escape inClass ('x'.toUInt8 :: rest) =
      match rest with
      | a :: b :: _ =>
          match hexPair a b with
          | some v => .ok (.byte v, 3)
          | none => .error .badHexEscape
      | _ => .error .badHexEscape := by
  cases inClass <;> rfl

theorem escape_control (inClass : Bool) (rest : List UInt8) :
    escape inClass ('c'.toUInt8 :: rest) =
      match rest with
      | x :: _ =>
          if isLetter x || isBetween x '@' '_' then .ok (.byte (x &&& 0x1f), 2)
          else .error .badControlEscape
      | [] => .error .badControlEscape := by
  cases inClass <;> rfl

theorem escape_unknown {inClass : Bool} {c : UInt8} (hletter : isLetter c = true)
    (hc : ∀ entry ∈ letterEscapes, c ≠ entry.1.toUInt8) (hb : ¬ (inClass = true ∧ c = 'b'.toUInt8))
    (hhex : c ≠ 'x'.toUInt8) (hcontrol : c ≠ 'c'.toUInt8) (rest : List UInt8) :
    escape inClass (c :: rest) = .error (.unknownEscape c) := by
  have hne : ∀ {x : Char}, x ∈ letterEscapes.map Prod.fst → x.toNat < 256 → isChar c x = false := by
    intro x hx hlt
    obtain ⟨entry, hentry, rfl⟩ := List.mem_map.1 hx
    exact isChar_eq_false hlt (hc entry hentry)
  have hoctal : ¬ isOctal c = true := fun h => nomatch hletter.symm.trans (isLetter_of_isOctal h)
  rw [← isChar_iff (by decide), ← Bool.and_eq_true] at hb
  simp (disch := decide) only [escape, hne, isChar_eq_false _ hhex, isChar_eq_false _ hcontrol, hb,
    hoctal, hletter, Bool.true_or, Bool.false_eq_true, if_false, if_true]

theorem escape_sound_of_not_isLetter {inClass : Bool} {c : UInt8} {rest : List UInt8} {e : Escaped}
    {n : Nat} (hletter : isLetter c = false) (h : escape inClass (c :: rest) = .ok (e, n)) :
    Escape .lenient inClass e.byte? (c :: rest) ((c :: rest).drop n) := by
  rw [escape_of_not_isLetter hletter] at h
  split at h
  · rename_i hoctal
    split at h
    · rename_i hvalue
      obtain ⟨after, hrest, hlength, htail, hafter⟩ := octalTail_spec rest
      cases h
      generalize octalTail rest = tail at hrest hlength htail hafter hvalue
      subst hrest
      have hescape : Escape .lenient inClass (some (numeral 8 (c :: tail)).toUInt8)
          ((c :: tail) ++ after) after :=
        .octal (List.cons_ne_nil c tail) (Nat.succ_le_succ hlength)
          (List.forall_mem_cons.2 ⟨hoctal, htail⟩)
          (fun hshort => hafter (Nat.lt_of_succ_lt_succ hshort)) hvalue
      rwa [List.drop_succ_cons, List.drop_left]
    · contradiction
  · split at h
    · contradiction
    · rename_i hdigit
      cases h
      exact .itself hletter (Bool.eq_false_of_not_eq_true hdigit)

theorem escape_sound {inClass : Bool} {cs : List UInt8} {e : Escaped} {n : Nat}
    (h : escape inClass cs = .ok (e, n)) : Escape .lenient inClass e.byte? cs (cs.drop n) := by
  rcases cs with _ | ⟨c, rest⟩
  · contradiction
  cases hletter : isLetter c with
  | false => exact escape_sound_of_not_isLetter hletter h
  | true =>
      -- in the order of the reader; whatever letter is left stands for nothing
      by_cases hc : ∃ entry ∈ letterEscapes, c = entry.1.toUInt8
      · obtain ⟨⟨x, v⟩, hx, rfl⟩ := hc
        obtain ⟨e', he', rfl⟩ := escape_letter hx inClass rest
        cases he'.symm.trans h
        exact .letter hx
      by_cases hb : inClass = true ∧ c = 'b'.toUInt8
      · obtain ⟨rfl, rfl⟩ := hb
        cases h
        exact .backspace rfl
      by_cases hhex : c = 'x'.toUInt8
      · subst hhex
        rw [escape_hex] at h
        split at h
        · split at h
          · rename_i hv
            cases h
            exact .hex (hexPair_eq _ _ ▸ hv)
          · contradiction
        · contradiction
      by_cases hcontrol : c = 'c'.toUInt8
      · subst hcontrol
        rw [escape_control] at h
        split at h
        · split at h
          · rename_i hx
            cases h
            exact .control (isControl_iff.1 hx)
          · contradiction
        · contradiction
      · rw [escape_unknown hletter (fun entry hentry heq => hc ⟨entry, hentry, heq⟩) hb hhex
          hcontrol] at h
        contradiction

theorem escape_complete {inClass : Bool} {v : Option UInt8} {cs rest : List UInt8}
    (h : Escape .lenient inClass v cs rest) :
    ∃ e n, escape inClass cs = .ok (e, n) ∧ e.byte? = v ∧ n ≤ cs.length ∧ rest = cs.drop n := by
  cases h with
  | letter hc =>
      obtain ⟨e, he, hv⟩ := escape_letter hc inClass rest
      exact ⟨e, 1, he, hv, Nat.le_add_left 1 _, rfl⟩
  | backspace hclass =>
      subst hclass
      exact ⟨_, 1, rfl, rfl, Nat.le_add_left 1 _, rfl⟩
  | @hex _ _ v _ hv =>
      refine ⟨.byte v, 3, ?_, rfl, Nat.le_add_left 3 _, rfl⟩
      simp only [escape_hex, hexPair_eq, hv]
  | octal hne hlength hoctal hrest hvalue =>
      obtain ⟨c, tail, rfl⟩ := List.exists_cons_of_ne_nil hne
      obtain ⟨hc, htail⟩ := List.forall_mem_cons.1 hoctal
      have hread := octalTail_append (Nat.le_of_succ_le_succ hlength) htail
        fun hshort => hrest (Nat.succ_lt_succ hshort)
      refine ⟨.byte _, tail.length + 1, ?_, rfl, by simp, by simp⟩
      rw [List.cons_append, escape_of_not_isLetter (isLetter_of_isOctal hc), if_pos hc, hread,
        if_pos hvalue]
  | @control x _ hx =>
      refine ⟨.byte _, 2, ?_, rfl, Nat.le_add_left 2 _, rfl⟩
      rw [escape_control]
      exact if_pos (isControl_iff.2 hx)
  | @itself c _ hletter hdigit =>
      have hoctal : ¬ isOctal c = true := fun h => nomatch hdigit.symm.trans (isDigit_of_isOctal h)
      refine ⟨.byte c, 1, ?_, rfl, Nat.le_add_left 1 _, rfl⟩
      rw [escape_of_not_isLetter hletter, if_neg hoctal, hdigit, if_neg Bool.false_ne_true]

/-- What is read of a phrase is what it stands for and where it ends, or there is no such phrase. -/
def ReadsByte {ε : Type} (phrase : Option UInt8 → List UInt8 → Prop) (cs : List UInt8) :
    Except ε (Escaped × Nat) → Prop
  | .ok (e, n) => n ≤ cs.length ∧ ∀ v rest, phrase v rest ↔ v = e.byte? ∧ rest = cs.drop n
  | .error _ => ∀ v rest, ¬ phrase v rest

theorem escape_reads (inClass : Bool) (cs : List UInt8) :
    ReadsByte (Escape .lenient inClass · cs) cs (escape inClass cs) := by
  rcases hread : escape inClass cs with _ | ⟨e, n⟩
  · intro v rest h
    obtain ⟨_, _, he, -⟩ := escape_complete h
    cases hread.symm.trans he
  · have hsound := escape_sound hread
    obtain ⟨_, _, he, -, hn, -⟩ := escape_complete hsound
    cases hread.symm.trans he
    refine ⟨hn, fun v rest => ⟨fun h => ?_, ?_⟩⟩
    · obtain ⟨_, _, he, rfl, -, rfl⟩ := escape_complete h
      cases hread.symm.trans he
      exact ⟨rfl, rfl⟩
    · rintro ⟨rfl, rfl⟩
      exact hsound

/-! ### Classes -/

/-- A byte or an escape in a class, and how many bytes it takes after its first. -/
def single (pos : Nat) (c : UInt8) (rest : List UInt8) : Except Located (Escaped × Nat) :=
  if isChar c '\\' then
    match escape true rest with
    | .error fault => .error (pos, fault)
    | .ok r => .ok r
  else .ok (.byte c, 0)

theorem single_error {pos : Nat} {c : UInt8} {rest : List UInt8} {e : Located}
    (h : single pos c rest = .error e) : e.1 = pos := by
  rw [single] at h
  split at h
  · split at h <;> cases h
    rfl
  · contradiction

theorem single_reads (pos : Nat) (c : UInt8) (rest : List UInt8) :
    ReadsByte (Single .lenient · (c :: rest)) rest (single pos c rest) := by
  by_cases hc : c = '\\'.toUInt8
  · subst hc
    have hescape : ∀ v after,
        Single .lenient v ('\\'.toUInt8 :: rest) after ↔ Escape .lenient true v rest after := by
      intro v after
      constructor
      · rintro (h | h)
        · exact absurd rfl h
        · exact h
      · exact .escape
    have hreads := escape_reads true rest
    rw [single, if_pos (isChar_self (by decide))]
    rcases hread : escape true rest with _ | _ <;> rw [hread] at hreads
    · exact fun v after h => hreads v after ((hescape v after).1 h)
    · exact ⟨hreads.1, fun v after => (hescape v after).trans (hreads.2 v after)⟩
  · rw [single, isChar_eq_false (by decide) hc, if_neg Bool.false_ne_true]
    refine ⟨Nat.zero_le _, fun v after => ⟨?_, ?_⟩⟩
    · rintro (h | h)
      · exact ⟨rfl, rfl⟩
      · exact absurd rfl hc
    · rintro ⟨rfl, rfl⟩
      exact .byte hc

theorem opensRange_iff {cs : List UInt8} : opensRange cs = true ↔ StartsRange cs := by
  match cs with
  | [] => exact ⟨nofun, fun ⟨_, _, h, _⟩ => nomatch h⟩
  | [c] => exact ⟨nofun, fun ⟨_, _, h, _⟩ => nomatch h⟩
  | dash :: next :: tail =>
      rw [opensRange, Bool.and_eq_true, isChar_iff (by decide), Bool.not_eq_true',
        ← Bool.not_eq_true,
        isChar_iff (by decide)]
      constructor
      · rintro ⟨rfl, hnext⟩
        exact ⟨next, tail, rfl, hnext⟩
      · rintro ⟨_, _, heq, hnext⟩
        cases heq
        exact ⟨rfl, hnext⟩

theorem rangeEnd_cons (item pos : Nat) (c : UInt8) (rest : List UInt8) :
    rangeEnd item pos (c :: rest) =
      match single pos c rest with
      | .error e => .error e
      | .ok (.set _, _) => .error (item, .shorthandEndsRange)
      | .ok (.byte b, n) => .ok (b, n + 1) := by
  rw [rangeEnd, single]
  split
  · rcases escape true rest with _ | ⟨_ | _, _⟩ <;> rfl
  · rfl

/-- What an item comes to that begins with a byte or an escape. -/
def itemFrom (pos : Nat) (rest : List UInt8) : Escaped × Nat → Except Located ((UInt8 → Bool) × Nat)
  | (.set s, n) => .ok (s, n)
  | (.byte lo, n) =>
      if opensRange (rest.drop n) then do
        let (hi, m) ← rangeEnd pos (pos + n + 2) ((rest.drop n).drop 1)
        if hi < lo then throw (pos, .rangeOutOfOrder lo hi)
        return (fun b => lo ≤ b && b ≤ hi, n + m + 1)
      else .ok (fun b => b == lo, n)

theorem classItem_eq (pos : Nat) (c : UInt8) (rest : List UInt8) :
    classItem pos c rest = (single pos c rest).bind (itemFrom pos rest) := by
  rw [classItem, single]
  split
  · rcases escape true rest with _ | ⟨_ | _, n⟩ <;> rfl
  · rfl

section Reads

variable {α β : Type} {phrase phrase' : List UInt8 → Prop} {cs : List UInt8} {base limit n : Nat}
  {x : Except Located (α × Nat)}

/-- What is read of a phrase is where it ends, or there is no such phrase and the fault is before
`limit`. Ends are counted from `base`. -/
def Reads (phrase : List UInt8 → Prop) (cs : List UInt8) (base limit : Nat) :
    Except Located (α × Nat) → Prop
  | .ok (_, stop) => base ≤ stop ∧ stop ≤ base + cs.length ∧
      ∀ rest, phrase rest ↔ rest = cs.drop (stop - base)
  | .error e => e.1 < limit ∧ ∀ rest, ¬ phrase rest

namespace Reads

theorem congr (h : Reads phrase cs base limit x) (hphrase : ∀ rest, phrase' rest ↔ phrase rest) :
    Reads phrase' cs base limit x := by
  rcases x with _ | _
  · exact ⟨h.1, fun rest hrest => h.2 rest ((hphrase rest).1 hrest)⟩
  · exact ⟨h.1, h.2.1, fun rest => (hphrase rest).trans (h.2.2 rest)⟩

theorem map (h : Reads phrase cs base limit x) (f : α → β) :
    Reads phrase cs base limit (x.map fun (a, stop) => (f a, stop)) := by
  rcases x with _ | _ <;> exact h

theorem map_sub (h : Reads phrase cs base limit x) :
    Reads phrase cs 0 limit (x.map fun (a, stop) => (a, stop - base)) := by
  rcases x with _ | _
  · exact h
  · obtain ⟨hbase, hstop, hphrase⟩ := h
    exact ⟨Nat.zero_le _, by omega, hphrase⟩

theorem cons {c : UInt8} (hn : n ≤ cs.length)
    (h : Reads phrase (cs.drop n) (base + 1 + n) limit x) :
    Reads phrase (c :: cs) base limit x := by
  rcases x with _ | ⟨_, stop⟩
  · exact h
  · obtain ⟨hbase, hstop, hphrase⟩ := h
    rw [List.length_drop] at hstop
    refine ⟨by omega, by rw [List.length_cons]; omega, fun rest => ?_⟩
    rw [hphrase, List.drop_drop, show stop - base = n + (stop - (base + 1 + n)) + 1 by omega,
      List.drop_succ_cons]

end Reads

end Reads

theorem itemFrom_range {pos n : Nat} {rest tail : List UInt8} {lo next : UInt8}
    (hmid : rest.drop n = '-'.toUInt8 :: next :: tail) (hnext : next ≠ ']'.toUInt8) :
    itemFrom pos rest (.byte lo, n) =
      match single (pos + n + 2) next tail with
      | .error e => .error e
      | .ok (.set _, _) => .error (pos, .shorthandEndsRange)
      | .ok (.byte hi, m) =>
          if hi < lo then .error (pos, .rangeOutOfOrder lo hi)
          else .ok (fun b => lo ≤ b && b ≤ hi, n + (m + 1) + 1) := by
  have hopens : opensRange (rest.drop n) = true := opensRange_iff.2 ⟨next, tail, hmid, hnext⟩
  rw [itemFrom, if_pos hopens, hmid, List.drop_succ_cons, List.drop_zero, rangeEnd_cons]
  rcases single (pos + n + 2) next tail with _ | ⟨hi | _, _⟩
  · rfl
  · dsimp only [bind, Except.bind]
    split <;> rfl
  · rfl

theorem classItem_iff {d : Dialect} {v : Option UInt8} {cs mid after : List UInt8}
    (h : ∀ v' mid', Single d v' cs mid' ↔ v' = v ∧ mid' = mid) : ClassItem d cs after ↔
      v = none ∧ after = mid ∨ v ≠ none ∧ ¬ StartsRange mid ∧ after = mid ∨
        ∃ lo next tail hi, v = some lo ∧ mid = '-'.toUInt8 :: next :: tail ∧ next ≠ ']'.toUInt8 ∧
          Single d (some hi) (next :: tail) after ∧ lo ≤ hi := by
  constructor
  · intro hitem
    cases hitem with
    | shorthand hset =>
        obtain ⟨hv, rfl⟩ := (h _ _).1 hset
        exact .inl ⟨hv.symm, rfl⟩
    | byte hbyte hplain =>
        obtain ⟨rfl, rfl⟩ := (h _ _).1 hbyte
        exact .inr (.inl ⟨nofun, hplain, rfl⟩)
    | @range lo hi _ mid _ hlo hhead hhi hle =>
        obtain ⟨next, tail, rfl⟩ : ∃ next tail, mid = next :: tail := by
          cases hhi <;> exact ⟨_, _, rfl⟩
        obtain ⟨rfl, rfl⟩ := (h _ _).1 hlo
        exact .inr (.inr ⟨lo, next, tail, hi, rfl, rfl,
          fun hnext => hhead (congrArg some hnext), hhi, hle⟩)
  · rintro (⟨rfl, rfl⟩ | ⟨hv, hplain, rfl⟩ | ⟨lo, next, tail, hi, rfl, rfl, hnext, hhi, hle⟩)
    · exact .shorthand ((h _ _).2 ⟨rfl, rfl⟩)
    · obtain ⟨b, rfl⟩ := Option.ne_none_iff_exists'.1 hv
      exact .byte ((h _ _).2 ⟨rfl, rfl⟩) hplain
    · exact .range ((h _ _).2 ⟨rfl, rfl⟩) (fun hhead => hnext (Option.some.inj hhead)) hhi hle

theorem rangeItem_reads {pos n : Nat} {c lo : UInt8} {rest : List UInt8}
    (hlo : ∀ v after, Single .lenient v (c :: rest) after ↔ v = some lo ∧ after = rest.drop n)
    (hopens : StartsRange (rest.drop n)) :
    Reads (ClassItem .lenient (c :: rest)) rest 0 (pos + 1 + rest.length)
      (itemFrom pos rest (.byte lo, n)) := by
  have ⟨next, tail, hmid, hnext⟩ := hopens
  have hlength := congrArg List.length hmid
  simp only [List.length_drop, List.length_cons] at hlength
  have hitem : ∀ after, ClassItem .lenient (c :: rest) after ↔
      ∃ hi, Single .lenient (some hi) (next :: tail) after ∧ lo ≤ hi := by
    intro after
    rw [classItem_iff hlo]
    rw [hmid] at hopens ⊢
    simp [hopens, hnext]
  have hhi := single_reads (pos + n + 2) next tail
  rw [itemFrom_range hmid hnext]
  rcases hsingle : single (pos + n + 2) next tail with e | ⟨hi | s, m⟩ <;> rw [hsingle] at hhi
  · refine ⟨?_, fun after h => ?_⟩
    · rw [single_error hsingle]
      omega
    · obtain ⟨hi, h, -⟩ := (hitem after).1 h
      exact hhi _ _ h
  · obtain ⟨hm, hhi⟩ := hhi
    simp only [hhi, Escaped.byte?, Option.some.injEq] at hitem
    dsimp only
    split
    · rename_i hlt
      refine ⟨by dsimp only; omega, fun after h => ?_⟩
      obtain ⟨_, ⟨rfl, -⟩, hle⟩ := (hitem after).1 h
      exact UInt8.not_lt.2 hle hlt
    · rename_i hlt
      -- one byte more for the dash, and one for the first of the upper end
      have hdrop : rest.drop (n + (m + 1) + 1) = tail.drop m := by
        rw [show n + (m + 1) + 1 = n + (m + 2) by omega, ← List.drop_drop, hmid]
        rfl
      refine ⟨Nat.zero_le _, by omega, fun after => ?_⟩
      rw [hitem, Nat.sub_zero, hdrop]
      constructor
      · rintro ⟨_, ⟨-, rfl⟩, -⟩
        rfl
      · rintro rfl
        exact ⟨hi, ⟨rfl, rfl⟩, UInt8.not_lt.1 hlt⟩
  · refine ⟨by dsimp only; omega, fun after h => ?_⟩
    obtain ⟨_, h, -⟩ := (hitem after).1 h
    cases ((hhi.2 _ _).1 h).1

theorem classItem_reads (pos : Nat) (c : UInt8) (rest : List UInt8) :
    Reads (ClassItem .lenient (c :: rest)) rest 0 (pos + 1 + rest.length)
      (classItem pos c rest) := by
  have hlo := single_reads pos c rest
  rw [classItem_eq]
  rcases hsingle : single pos c rest with e | ⟨e, n⟩ <;> rw [hsingle] at hlo
  · refine ⟨?_, ?_⟩
    · rw [single_error hsingle]
      omega
    · intro after h
      cases h with
      | shorthand h | byte h | range h => exact hlo _ _ h
  obtain ⟨hn, hlo⟩ := hlo
  rcases e with lo | s
  · by_cases hopens : StartsRange (rest.drop n)
    · exact rangeItem_reads hlo hopens
    · rw [Except.bind, itemFrom, if_neg (mt opensRange_iff.1 hopens)]
      refine ⟨Nat.zero_le _, by omega, fun after => ?_⟩
      rw [classItem_iff hlo]
      simp only [Escaped.byte?, reduceCtorEq, false_and, false_or, ne_eq, not_false_eq_true,
        hopens, true_and]
      refine ⟨?_, .inl⟩
      rintro (h | ⟨_, next, tail, _, -, hmid, hnext, -⟩)
      · exact h
      · exact absurd ⟨next, tail, hmid, hnext⟩ hopens
  · refine ⟨Nat.zero_le _, by omega, fun after => ?_⟩
    rw [classItem_iff hlo]
    simp [Escaped.byte?]

/-- The items of a class, of which the first may be a closing bracket. -/
def ClassBody (first : Bool) (cs rest : List UInt8) : Prop :=
  if first then ∃ mid, ClassItem .lenient cs mid ∧ ClassItems .lenient mid rest
  else ClassItems .lenient cs rest

theorem not_classItem_nil {rest : List UInt8} : ¬ ClassItem .lenient [] rest := by
  rintro (h | h | h) <;> cases h

theorem classBody_iff {first : Bool} {c : UInt8} {cs rest : List UInt8}
    (hc : ¬ (isChar c ']' && !first) = true) :
    ClassBody first (c :: cs) rest ↔
      ∃ mid, ClassItem .lenient (c :: cs) mid ∧ ClassItems .lenient mid rest := by
  cases first with
  | true => exact Iff.rfl
  | false =>
      rw [Bool.not_false, Bool.and_true, isChar_iff (by decide)] at hc
      constructor
      · rintro (_ | ⟨-, hitem, hitems⟩)
        · exact absurd rfl hc
        · exact ⟨_, hitem, hitems⟩
      · rintro ⟨mid, hitem, hitems⟩
        exact .item (fun hhead => hc (Option.some.inj hhead)) hitem hitems

theorem not_classBody_nil {first : Bool} {rest : List UInt8} : ¬ ClassBody first [] rest := by
  intro h
  cases first with
  | true =>
      obtain ⟨mid, hitem, -⟩ := h
      exact not_classItem_nil hitem
  | false =>
      rcases h with _ | ⟨-, hitem, -⟩
      exact not_classItem_nil hitem

/-- The items of a class are read as they are written. -/
theorem classItems_reads (opened : Nat) (first : Bool) (set : UInt8 → Bool) (pos : Nat)
    (cs : List UInt8) (hopened : opened < pos) :
    Reads (ClassBody first cs) cs pos (pos + cs.length) (classItems opened first set pos cs) := by
  -- the offset moves along with the bytes, so that all items have the same limit
  fun_induction classItems opened first set pos cs with
  | case1 first set pos => exact ⟨hopened, fun _ => not_classBody_nil⟩
  | case2 first set pos c tail hclose =>
      rw [Bool.and_eq_true, isChar_iff (by decide), Bool.not_eq_true'] at hclose
      obtain ⟨rfl, rfl⟩ := hclose
      refine ⟨Nat.le_succ pos, by simp, fun rest => ?_⟩
      rw [Nat.add_sub_cancel_left]
      constructor
      · rintro (_ | ⟨hhead, -⟩)
        · rfl
        · exact absurd rfl hhead
      · rintro rfl
        exact .close
  | case3 first set pos c tail hopen e hitem =>
      have hreads := classItem_reads pos c tail
      rw [hitem] at hreads
      refine ⟨by have := hreads.1; simp only [List.length_cons]; omega, fun rest h => ?_⟩
      obtain ⟨mid, h, -⟩ := (classBody_iff hopen).1 h
      exact hreads.2 mid h
  | case4 first set pos c tail hopen item n hitem ih =>
      have hreads := classItem_reads pos c tail
      rw [hitem] at hreads
      obtain ⟨-, hn, hmid⟩ := hreads
      have hbody : ∀ rest, ClassBody first (c :: tail) rest ↔
          ClassBody false (tail.drop n) rest := by
        intro rest
        rw [classBody_iff hopen]
        simp only [hmid, exists_eq_left]
        rfl
      have hlimit : pos + 1 + n + (tail.drop n).length = pos + (c :: tail).length := by
        simp only [List.length_drop, List.length_cons]
        omega
      rw [← hlimit]
      exact ((ih (by omega)).congr hbody).cons (by omega)

theorem characterClass_cons (opened : Nat) (c : UInt8) (rest : List UInt8) :
    characterClass opened (c :: rest) =
      if isChar c '^' then
        (classItems opened true (fun _ => false) (opened + 2) rest).map fun (set, stop) =>
          (ofByteSet fun b => !set b, stop)
      else
        (classItems opened true (fun _ => false) (opened + 1) (c :: rest)).map fun (set, stop) =>
          (ofByteSet set, stop) := by
  rw [characterClass]
  split
  · rcases classItems opened true (fun _ => false) (opened + 2) rest with _ | _ <;> rfl
  · rcases classItems opened true (fun _ => false) (opened + 1) (c :: rest) with _ | _ <;> rfl

/-- Classes are read as they are written. -/
theorem characterClass_reads (opened : Nat) (cs : List UInt8) :
    Reads (Class .lenient cs) cs (opened + 1) (opened + 1 + cs.length)
      (characterClass opened cs) := by
  rcases cs with _ | ⟨c, tail⟩
  · refine ⟨Nat.lt_succ_self opened, fun rest h => ?_⟩
    cases h with
    | positive _ hitem => exact not_classItem_nil hitem
  rw [characterClass_cons]
  by_cases hc : c = '^'.toUInt8
  · subst hc
    have hbody : ∀ rest, Class .lenient ('^'.toUInt8 :: tail) rest ↔ ClassBody true tail rest := by
      intro rest
      constructor
      · rintro (⟨hhead, -⟩ | ⟨hitem, hitems⟩)
        · exact absurd rfl hhead
        · exact ⟨_, hitem, hitems⟩
      · rintro ⟨mid, hitem, hitems⟩
        exact .negative hitem hitems
    have hreads := classItems_reads opened true (fun _ => false) (opened + 2) tail (by omega)
    rw [if_pos (isChar_self (by decide)), List.length_cons, Nat.add_comm tail.length,
      ← Nat.add_assoc]
    exact ((hreads.congr hbody).map fun set => ofByteSet fun b => !set b).cons (n := 0)
      (Nat.zero_le _)
  · have hbody : ∀ rest, Class .lenient (c :: tail) rest ↔ ClassBody true (c :: tail) rest := by
      intro rest
      constructor
      · rintro (⟨-, hitem, hitems⟩ | h)
        · exact ⟨_, hitem, hitems⟩
        · exact absurd rfl hc
      · rintro ⟨mid, hitem, hitems⟩
        exact .positive (fun hhead => hc (Option.some.inj hhead)) hitem hitems
    have hreads := classItems_reads opened true (fun _ => false) (opened + 1) (c :: tail) (by omega)
    rw [isChar_eq_false (by decide) hc, if_neg Bool.false_ne_true]
    exact (hreads.congr hbody).map _

end Seedling.Regex
