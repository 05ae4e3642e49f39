import Mathlib.Data.List.Infix
import Mathlib.Tactic.Tauto
import Seedling.Regex.Pattern

/-!
The notation for expressions as a grammar. A relation says of each of its phrases where one that
begins with the first of some bytes ends, by what is left of them. What follows matters where
the notation does: a number is as long as it can be, a dash between two bytes of a class makes
them a range, and a brace after an atom opens a count if it can.

Two dialects differ in how numbers are written. In the strict one they consist of digits and nothing
else, and there is no limit on them.
-/

namespace Seedling.Regex

structure Dialect where
  /-- The byte that two places of a hexadecimal number stand for. -/
  hex : UInt8 → UInt8 → Option UInt8
  /-- The decimal digits that can be the lower bound of a count. -/
  lower : List UInt8 → Bool

def numeral (base : Nat) (ds : List UInt8) : Nat := ds.foldl (fun n d => n * base + digitValue d) 0

namespace Dialect

def strict : Dialect where
  hex a b := do
    let high ← hexValue a
    let low ← hexValue b
    return (high * 16 + low).toUInt8
  lower _ := true

/-- A plus sign may stand for the first hexadecimal digit, and a lower bound has 64 bits at most. -/
def lenient : Dialect where
  hex a b := if a = '+'.toUInt8 then (hexValue b).map Nat.toUInt8 else strict.hex a b
  lower ds := numeral 10 ds < UInt64.size

end Dialect

/-- The letters that stand for a set or for a control character. -/
def letterEscapes : List (Char × Option UInt8) :=
  [('d', none), ('D', none), ('s', none), ('S', none), ('w', none), ('W', none), ('n', some 0x0a),
    ('t', some 0x09), ('r', some 0x0d), ('f', some 0x0c), ('v', some 0x0b), ('a', some 0x07),
    ('e', some 0x1b)]

section Phrases

variable (d : Dialect)

/-- An escape behind its backslash, and the byte that it stands for unless it stands for a set. -/
inductive Escape (inClass : Bool) : Option UInt8 → List UInt8 → List UInt8 → Prop where
  | letter {c : Char} {v rest} : (c, v) ∈ letterEscapes → Escape inClass v (c.toUInt8 :: rest) rest
  | backspace {rest} : inClass = true → Escape inClass (some 0x08) ('b'.toUInt8 :: rest) rest
  | hex {a b v rest} : d.hex a b = some v →
      Escape inClass (some v) ('x'.toUInt8 :: a :: b :: rest) rest
  /-- The longest run of up to three digits. -/
  | octal {ds rest} : ds ≠ [] → ds.length ≤ 3 → (∀ b ∈ ds, isOctal b = true) →
      (ds.length < 3 → ∀ b ∈ rest.head?, isOctal b = false) → numeral 8 ds < 256 →
      Escape inClass (some (numeral 8 ds).toUInt8) (ds ++ rest) rest
  | control {x : UInt8} {rest} : isLetter x = true ∨
      x ∈ ['@', '[', '\\', ']', '^', '_'].map Char.toUInt8 →
      Escape inClass (some (x &&& 0x1f)) ('c'.toUInt8 :: x :: rest) rest
  | itself {c rest} : isLetter c = false → isDigit c = false →
      Escape inClass (some c) (c :: rest) rest

inductive Single : Option UInt8 → List UInt8 → List UInt8 → Prop where
  | byte {c rest} : c ≠ '\\'.toUInt8 → Single (some c) (c :: rest) rest
  | escape {v cs rest} : Escape d true v cs rest → Single v ('\\'.toUInt8 :: cs) rest

/-- A dash comes next, and something to end a range. -/
def StartsRange (cs : List UInt8) : Prop :=
  ∃ next tail, cs = '-'.toUInt8 :: next :: tail ∧ next ≠ ']'.toUInt8

inductive ClassItem : List UInt8 → List UInt8 → Prop where
  | shorthand {cs rest} : Single d none cs rest → ClassItem cs rest
  | byte {b cs rest} : Single d (some b) cs rest → ¬ StartsRange rest → ClassItem cs rest
  | range {lo hi cs mid rest} : Single d (some lo) cs ('-'.toUInt8 :: mid) →
      mid.head? ≠ some ']'.toUInt8 → Single d (some hi) mid rest → lo ≤ hi → ClassItem cs rest

inductive ClassItems : List UInt8 → List UInt8 → Prop where
  | close {rest} : ClassItems (']'.toUInt8 :: rest) rest
  | item {cs mid rest} : cs.head? ≠ some ']'.toUInt8 → ClassItem d cs mid → ClassItems mid rest →
      ClassItems cs rest

inductive Class : List UInt8 → List UInt8 → Prop where
  | positive {cs mid rest} : cs.head? ≠ some '^'.toUInt8 → ClassItem d cs mid →
      ClassItems d mid rest → Class cs rest
  | negative {cs mid rest} : ClassItem d cs mid → ClassItems d mid rest →
      Class ('^'.toUInt8 :: cs) rest

def Digits (ds : List UInt8) : Prop := ds ≠ [] ∧ ∀ b ∈ ds, isDigit b = true

instance (ds : List UInt8) : Decidable (Digits ds) :=
  decidable_of_iff ((!ds.isEmpty && ds.all isDigit) = true) (by simp [Digits])

inductive Count : Nat → Option Nat → List UInt8 → List UInt8 → Prop where
  | exactly {ds rest} : Digits ds → d.lower ds = true →
      Count (numeral 10 ds) (some (numeral 10 ds)) (ds ++ '\x7d'.toUInt8 :: rest) rest
  | atLeast {ds rest} : Digits ds → d.lower ds = true →
      Count (numeral 10 ds) none (ds ++ ','.toUInt8 :: '\x7d'.toUInt8 :: rest) rest
  | between {ds es rest} : Digits ds → d.lower ds = true → Digits es →
      Count (numeral 10 ds) (some (numeral 10 es))
        (ds ++ ','.toUInt8 :: (es ++ '\x7d'.toUInt8 :: rest)) rest

/-- A count comes next. -/
def OpensCount (cs : List UInt8) : Prop :=
  ∃ tail min max rest, cs = '\x7b'.toUInt8 :: tail ∧ Count d min max tail rest

inductive Quantifier : List UInt8 → List UInt8 → Prop where
  | sign {c : Char} {rest} : c ∈ ['*', '+', '?'] → Quantifier (c.toUInt8 :: rest) rest
  | count {min max cs rest} : Count d min max cs rest → (∀ m, max = some m → min ≤ m) →
      Quantifier ('\x7b'.toUInt8 :: cs) rest

/-- All the quantifiers of an atom, so that no count comes next. -/
inductive Quantifiers : List UInt8 → List UInt8 → Prop where
  | nil {cs} : ¬ OpensCount d cs → Quantifiers cs cs
  | cons {cs mid rest} : Quantifier d cs mid → Quantifiers mid rest → Quantifiers cs rest

inductive Symbol where
  | alternation
  | sequence
  | atom

def reserved : List UInt8 := ['(', ')', '[', '|', '*', '+', '?', '\\'].map Char.toUInt8

/-- An expression, a branch of one, or an atom begins the bytes and ends where the rest begins. -/
inductive Spells : Symbol → List UInt8 → List UInt8 → Prop where
  | last {cs rest} : Spells .sequence cs rest → Spells .alternation cs rest
  | more {cs mid rest} : Spells .sequence cs ('|'.toUInt8 :: mid) → Spells .alternation mid rest →
      Spells .alternation cs rest
  | nil {cs} : Spells .sequence cs cs
  | cons {cs mid mid' rest} : Spells .atom cs mid → Quantifiers d mid mid' →
      Spells .sequence mid' rest → Spells .sequence cs rest
  | group {cs rest} : Spells .alternation cs (')'.toUInt8 :: rest) →
      Spells .atom ('('.toUInt8 :: cs) rest
  | bracket {cs rest} : Class d cs rest → Spells .atom ('['.toUInt8 :: cs) rest
  | any {rest} : Spells .atom ('.'.toUInt8 :: rest) rest
  | escape {v cs rest} : Escape d false v cs rest → Spells .atom ('\\'.toUInt8 :: cs) rest
  | byte {c rest} : c ∉ reserved → Spells .atom (c :: rest) rest

end Phrases

section Inversion

variable {d : Dialect} {c : UInt8} {cs rest : List UInt8}

/-- The bytes that are quantifiers by themselves. -/
def signs : List UInt8 := ['*', '+', '?'].map Char.toUInt8

/-- The bytes at which a branch ends. -/
def stops : List UInt8 := [')', '|'].map Char.toUInt8

def separators : List UInt8 := '('.toUInt8 :: stops

theorem mem_reserved :
    c ∈ reserved ↔ c ∈ separators ∨ c = '['.toUInt8 ∨ c = '\\'.toUInt8 ∨ c ∈ signs := by
  simp only [reserved, separators, stops, signs, List.map_cons, List.map_nil, List.mem_cons,
    List.not_mem_nil, or_false]
  tauto

theorem atom_iff : Spells d .atom (c :: cs) rest ↔
    c = '('.toUInt8 ∧ Spells d .alternation cs (')'.toUInt8 :: rest) ∨
      c = '['.toUInt8 ∧ Class d cs rest ∨ c = '\\'.toUInt8 ∧ (∃ v, Escape d false v cs rest) ∨
        c ∉ reserved ∧ cs = rest := by
  constructor
  · intro h
    cases h with
    | group h => exact .inl ⟨rfl, h⟩
    | bracket h => exact .inr (.inl ⟨rfl, h⟩)
    | any => exact .inr (.inr (.inr ⟨by decide, rfl⟩))
    | escape h => exact .inr (.inr (.inl ⟨rfl, _, h⟩))
    | byte h => exact .inr (.inr (.inr ⟨h, rfl⟩))
  · rintro (⟨rfl, h⟩ | ⟨rfl, h⟩ | ⟨rfl, v, h⟩ | ⟨h, rfl⟩)
    · exact .group h
    · exact .bracket h
    · exact .escape h
    · exact .byte h

theorem not_atom (hc : c ∈ stops ++ signs) : ¬ Spells d .atom (c :: cs) rest := by
  simp only [stops, signs, List.map_cons, List.map_nil, List.cons_append, List.nil_append,
    List.mem_cons, List.not_mem_nil, or_false] at hc
  rcases hc with rfl | rfl | rfl | rfl | rfl <;>
    simp +decide only [atom_iff, false_and, or_self, not_false_eq_true]

theorem quantifier_iff : Quantifier d (c :: cs) rest ↔ c ∈ signs ∧ cs = rest ∨
    c = '\x7b'.toUInt8 ∧ ∃ min max, Count d min max cs rest ∧ ∀ m, max = some m → min ≤ m := by
  constructor
  · intro h
    cases h with
    | sign hc => exact .inl ⟨List.mem_map_of_mem hc, rfl⟩
    | count hcount hbounds => exact .inr ⟨rfl, _, _, hcount, hbounds⟩
  · rintro (⟨hc, rfl⟩ | ⟨rfl, min, max, hcount, hbounds⟩)
    · obtain ⟨x, hx, rfl⟩ := List.mem_map.1 hc
      exact .sign hx
    · exact .count hcount hbounds

theorem opensCount_iff : OpensCount d (c :: cs) ↔
    c = '\x7b'.toUInt8 ∧ ∃ min max rest, Count d min max cs rest := by
  constructor
  · rintro ⟨_, min, max, rest, heq, hcount⟩
    cases heq
    exact ⟨rfl, min, max, rest, hcount⟩
  · rintro ⟨rfl, min, max, rest, hcount⟩
    exact ⟨cs, min, max, rest, rfl, hcount⟩

end Inversion

/-- What comes next in a branch: a quantifier after an item, or an atom. -/
def Piece (d : Dialect) (after : Bool) (cs rest : List UInt8) : Prop :=
  after = true ∧ Quantifier d cs rest ∨
    (after = true → ¬ OpensCount d cs) ∧ Spells d .atom cs rest

theorem takeWhile_digits {ds : List UInt8} (hds : ∀ b ∈ ds, isDigit b = true) {b : UInt8}
    (hb : isDigit b = false) (rest : List UInt8) :
    (ds ++ b :: rest).takeWhile isDigit = ds := by
  rw [List.takeWhile_append_of_pos hds, List.takeWhile_cons_of_neg (by simp [hb]), List.append_nil]

theorem digits_append_inj {ds ds' tail tail' : List UInt8} {b b' : UInt8} (hds : Digits ds)
    (hds' : Digits ds')
    (hb : isDigit b = false) (hb' : isDigit b' = false) (h : ds ++ b :: tail = ds' ++ b' :: tail') :
    ds = ds' ∧ b = b' ∧ tail = tail' := by
  have hdigits := congrArg (List.takeWhile isDigit) h
  rw [takeWhile_digits hds.2 hb, takeWhile_digits hds'.2 hb'] at hdigits
  subst hdigits
  exact ⟨rfl, List.cons.inj (List.append_cancel_left h)⟩

end Seedling.Regex
