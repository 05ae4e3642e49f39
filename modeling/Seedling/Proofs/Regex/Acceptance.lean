import Seedling.Proofs.Regex.Dialects
import Seedling.Proofs.Regex.ItemReader

/-!
A pattern is read if and only if it is an expression. What is left of it once some groups are open
is the rest of a branch, with the rest of an expression behind it, once for each of them: this is
what reading on from there accepts. It is described for every dialect, by what comes next.
-/

namespace Seedling.Regex

section Groups

variable {d : Dialect} {n : Nat} {after : Bool} {c : UInt8} {cs rest : List UInt8}

def SequenceTail (d : Dialect) (after : Bool) (cs rest : List UInt8) : Prop :=
  if after then ∃ mid, Quantifiers d cs mid ∧ Spells d .sequence mid rest
  else Spells d .sequence cs rest

def AlternationTail (d : Dialect) (after : Bool) (cs rest : List UInt8) : Prop :=
  SequenceTail d after cs rest ∨
    ∃ mid, SequenceTail d after cs ('|'.toUInt8 :: mid) ∧ Spells d .alternation mid rest

def Completes (d : Dialect) : Nat → Bool → List UInt8 → Prop
  | 0, after, cs => AlternationTail d after cs []
  | n + 1, after, cs =>
      ∃ mid, AlternationTail d after cs (')'.toUInt8 :: mid) ∧ Completes d n true mid

theorem alternation_iff : Spells d .alternation cs rest ↔ AlternationTail d false cs rest := by
  constructor
  · intro h
    cases h with
    | last h => exact .inl h
    | more h h' => exact .inr ⟨_, h, h'⟩
  · rintro (h | ⟨mid, h, h'⟩)
    · exact .last h
    · exact .more h h'

theorem sequence_iff : Spells d .sequence cs rest ↔ cs = rest ∨
    ∃ mid, Spells d .atom cs mid ∧ SequenceTail d true mid rest := by
  constructor
  · intro h
    cases h with
    | nil => exact .inl rfl
    | cons hatom hquantifiers hrest => exact .inr ⟨_, hatom, _, hquantifiers, hrest⟩
  · rintro (rfl | ⟨mid, hatom, mid', hquantifiers, hrest⟩)
    · exact .nil
    · exact .cons hatom hquantifiers hrest

theorem sequenceTail_iff : SequenceTail d after cs rest ↔
    cs = rest ∧ (after = true → ¬ OpensCount d cs) ∨
      ∃ mid, Piece d after cs mid ∧ SequenceTail d true mid rest := by
  cases after with
  | false =>
    simp only [Piece, Bool.false_eq_true, false_and, false_or, false_imp_iff, true_and, and_true]
    exact sequence_iff
  | true =>
    simp only [Piece, true_and, forall_const]
    constructor
    -- where the quantifiers end no count comes next, which is what an atom after an item needs
    · rintro ⟨_, hquantifiers, hrest⟩
      cases hquantifiers with
      | nil hopens =>
        rcases sequence_iff.1 hrest with rfl | ⟨mid, hatom, hrest⟩
        · exact .inl ⟨rfl, hopens⟩
        · exact .inr ⟨mid, .inr ⟨hopens, hatom⟩, hrest⟩
      | cons hquantifier hquantifiers => exact .inr ⟨_, .inl hquantifier, _, hquantifiers, hrest⟩
    · rintro (⟨rfl, hopens⟩ | ⟨mid, hquantifier | ⟨hopens, hatom⟩, hrest⟩)
      · exact ⟨cs, .nil hopens, .nil⟩
      · obtain ⟨mid', hquantifiers, hrest⟩ := hrest
        exact ⟨mid', .cons hquantifier hquantifiers, hrest⟩
      · exact ⟨cs, .nil hopens, sequence_iff.2 (.inr ⟨mid, hatom, hrest⟩)⟩

theorem not_piece_nil : ¬ Piece d after [] rest := by
  rintro (⟨-, h⟩ | ⟨-, h⟩) <;> cases h

theorem apart_of_mem_stops (hc : c ∈ stops) : c ∉ signs ∧ c ≠ '\x7b'.toUInt8 := by
  simp only [stops, List.map_cons, List.map_nil, List.mem_cons, List.not_mem_nil, or_false] at hc
  rcases hc with rfl | rfl <;> decide

theorem not_piece_stop (hc : c ∈ stops) : ¬ Piece d after (c :: cs) rest := by
  obtain ⟨hsigns, hbrace⟩ := apart_of_mem_stops hc
  rintro (⟨-, h⟩ | ⟨-, h⟩)
  · rcases quantifier_iff.1 h with ⟨h, -⟩ | ⟨h, -⟩
    · exact hsigns h
    · exact hbrace h
  · exact not_atom (List.mem_append_left _ hc) h

theorem piece_group :
    Piece d after ('('.toUInt8 :: cs) rest ↔ Spells d .alternation cs (')'.toUInt8 :: rest) := by
  simp +decide only [Piece, quantifier_iff, opensCount_iff, atom_iff, false_and,
    or_false, and_false, not_false_eq_true, implies_true, true_and, false_or]

theorem sequenceTail_nil : SequenceTail d after [] rest ↔ rest = [] := by
  have hopens : ¬ OpensCount d [] := fun ⟨_, _, _, _, h, _⟩ => nomatch h
  rw [sequenceTail_iff]
  simp only [not_piece_nil, false_and, exists_false, or_false, hopens,
    not_false_eq_true, implies_true, and_true, eq_comm]

theorem sequenceTail_stop (hc : c ∈ stops) :
    SequenceTail d after (c :: cs) rest ↔ rest = c :: cs := by
  have hopens : ¬ OpensCount d (c :: cs) :=
    fun h => (apart_of_mem_stops hc).2 (opensCount_iff.1 h).1
  rw [sequenceTail_iff]
  simp only [not_piece_stop hc, false_and, exists_false, or_false, hopens, not_false_eq_true,
    implies_true, and_true, eq_comm]

/-- A branch ends where the pattern, its group or its expression does. -/
def Ends (rest : List UInt8) : Prop := ∀ b ∈ rest.head?, b ∈ stops

theorem sequenceTail_item (hc : c ∉ stops) (hrest : Ends rest) :
    SequenceTail d after (c :: cs) rest ↔
    ∃ mid, Piece d after (c :: cs) mid ∧ SequenceTail d true mid rest := by
  have hne : c :: cs ≠ rest := by
    rintro rfl
    exact hc (hrest c rfl)
  rw [sequenceTail_iff]
  simp only [hne, false_and, false_or]

theorem alternationTail_item (hc : c ∉ stops) (hrest : Ends rest) :
    AlternationTail d after (c :: cs) rest ↔
      ∃ mid, Piece d after (c :: cs) mid ∧ AlternationTail d true mid rest := by
  have hbar : ∀ mid, Ends ('|'.toUInt8 :: mid) := by
    rintro mid _ ⟨⟩
    decide
  simp only [AlternationTail, sequenceTail_item hc hrest, sequenceTail_item hc (hbar _)]
  constructor
  · rintro (⟨mid, hpiece, h⟩ | ⟨mid', ⟨mid, hpiece, h⟩, h'⟩)
    · exact ⟨mid, hpiece, .inl h⟩
    · exact ⟨mid, hpiece, .inr ⟨mid', h, h'⟩⟩
  · rintro ⟨mid, hpiece, h | ⟨mid', h, h'⟩⟩
    · exact .inl ⟨mid, hpiece, h⟩
    · exact .inr ⟨mid', ⟨mid, hpiece, h⟩, h'⟩

theorem alternationTail_nil : AlternationTail d after [] rest ↔ rest = [] := by
  simp only [AlternationTail, sequenceTail_nil, reduceCtorEq, false_and, exists_false, or_false]

theorem alternationTail_close :
    AlternationTail d after (')'.toUInt8 :: cs) rest ↔ rest = ')'.toUInt8 :: cs := by
  have hne : ∀ mid, '|'.toUInt8 :: mid ≠ ')'.toUInt8 :: cs := by
    intro mid h
    exact absurd (List.cons.inj h).1 (by decide)
  simp only [AlternationTail, sequenceTail_stop (c := ')'.toUInt8) (by decide), hne, false_and,
    exists_false, or_false]

theorem alternationTail_bar : AlternationTail d after ('|'.toUInt8 :: cs) rest ↔
    rest = '|'.toUInt8 :: cs ∨ AlternationTail d false cs rest := by
  rw [← alternation_iff]
  simp only [AlternationTail, sequenceTail_stop (c := '|'.toUInt8) (by decide),
    List.cons.injEq, true_and, exists_eq_left]

theorem completes_nil : Completes d n after [] ↔ n = 0 := by
  cases n with
  | zero => simp only [Completes, alternationTail_nil]
  | succ n => simp only [Completes, alternationTail_nil, reduceCtorEq, false_and, exists_false]

theorem completes_item (hc : c ∉ stops) : Completes d n after (c :: cs) ↔
    ∃ mid, Piece d after (c :: cs) mid ∧ Completes d n true mid := by
  cases n with
  | zero => exact alternationTail_item hc nofun
  | succ n =>
    have hclose : ∀ mid, Ends (')'.toUInt8 :: mid) := by
      rintro mid _ ⟨⟩
      decide
    simp only [Completes, alternationTail_item hc (hclose _)]
    constructor
    · rintro ⟨mid', ⟨mid, hpiece, h⟩, h'⟩
      exact ⟨mid, hpiece, mid', h, h'⟩
    · rintro ⟨mid, hpiece, mid', h, h'⟩
      exact ⟨mid', ⟨mid, hpiece, h⟩, h'⟩

theorem completes_bar : Completes d n after ('|'.toUInt8 :: cs) ↔ Completes d n false cs := by
  have hne : ∀ mid, ')'.toUInt8 :: mid ≠ '|'.toUInt8 :: cs := by
    intro mid h
    exact absurd (List.cons.inj h).1 (by decide)
  cases n with
  | zero => simp only [Completes, alternationTail_bar, reduceCtorEq, false_or]
  | succ n => simp only [Completes, alternationTail_bar, hne, false_or]

theorem completes_open :
    Completes d n after ('('.toUInt8 :: cs) ↔ Completes d (n + 1) false cs := by
  rw [completes_item (by decide)]
  simp only [piece_group, alternation_iff, Completes]

theorem completes_close : Completes d n after (')'.toUInt8 :: cs) ↔
    ∃ m, n = m + 1 ∧ Completes d m true cs := by
  cases n with
  | zero => simp only [Completes, alternationTail_close, reduceCtorEq, false_and, exists_false]
  | succ n =>
      simp only [Completes, alternationTail_close, List.cons.injEq, true_and, exists_eq_left,
        Nat.add_right_cancel_iff, exists_eq_left']

end Groups

theorem not_mem_separators {c : UInt8} (hbar : ¬ isChar c '|' = true)
    (hopen : ¬ isChar c '(' = true) (hclose : ¬ isChar c ')' = true) : c ∉ separators := by
  rw [isChar_iff (by decide)] at hbar hopen hclose
  simp only [separators, stops, List.map_cons, List.map_nil, List.mem_cons, List.not_mem_nil,
    or_false, hbar, hopen, hclose, not_false_eq_true]

/-- Patterns are read to their end if what is left of them is well-formed. Otherwise the fault is in
them: groups that are open have been opened before. -/
theorem readFrom_reads {limit : Nat} (pos : Nat) (level : Level) (outer : List (Nat × Level))
    (cs : List UInt8) (hlimit : pos + cs.length = limit) (houter : ∀ group ∈ outer, group.1 < pos) :
    match readFrom pos level outer cs with
    | .ok _ => Completes .lenient outer.length level.hasItem cs
    | .error e => e.1 < limit ∧ ¬ Completes .lenient outer.length level.hasItem cs := by
  -- an item moves the offset by what it takes of the bytes, so the limit is the same throughout
  fun_induction readFrom pos level outer cs with
  | case1 pos level => exact completes_nil.2 rfl
  | case2 pos level opened up outer =>
    exact ⟨hlimit ▸ houter _ List.mem_cons_self, mt completes_nil.1 (Nat.succ_ne_zero _)⟩
  | case3 pos level outer c cs hc ih =>
    obtain rfl := (isChar_iff (by decide)).1 hc
    rw [completes_bar]
    exact ih (by rw [← hlimit, List.length_cons]; omega)
      fun group hgroup => Nat.lt_succ_of_lt (houter group hgroup)
  | case4 pos level outer c cs hbar hc ih =>
    obtain rfl := (isChar_iff (by decide)).1 hc
    rw [completes_open]
    exact ih (by rw [← hlimit, List.length_cons]; omega) (List.forall_mem_cons.2
      ⟨Nat.lt_succ_self pos, fun group hgroup => Nat.lt_succ_of_lt (houter group hgroup)⟩)
  | case5 pos level c cs hbar hopen hc =>
    obtain rfl := (isChar_iff (by decide)).1 hc
    refine ⟨hlimit ▸ Nat.lt_add_of_pos_right (Nat.succ_pos _), fun h => ?_⟩
    obtain ⟨_, h, -⟩ := completes_close.1 h
    contradiction
  | case6 pos level c cs hbar hopen hc opened up outer ih =>
    obtain rfl := (isChar_iff (by decide)).1 hc
    simp only [completes_close, List.length_cons, Nat.add_right_cancel_iff, exists_eq_left']
    exact ih (by rw [← hlimit, List.length_cons]; omega)
      fun group hgroup => Nat.lt_succ_of_lt (houter group (List.mem_cons_of_mem _ hgroup))
  | case7 pos level outer c cs hbar hopen hclose e hitem =>
    have hc := not_mem_separators hbar hopen hclose
    have hreads := item_reads pos level cs hc
    rw [hitem] at hreads
    refine ⟨by have := hreads.1; rw [List.length_cons] at hlimit; omega, fun h => ?_⟩
    obtain ⟨mid, hpiece, -⟩ := (completes_item (List.not_mem_of_not_mem_cons hc)).1 h
    exact hreads.2 mid hpiece
  | case8 pos level outer c cs hbar hopen hclose level' n hitem ih =>
    have hc := not_mem_separators hbar hopen hclose
    have hreads := item_reads pos level cs hc
    rw [hitem] at hreads
    obtain ⟨-, hn, hpiece⟩ := hreads
    simp only [completes_item (List.not_mem_of_not_mem_cons hc), hpiece, exists_eq_left]
    rw [hasItem_of_item hitem] at ih
    refine ih ?_ fun group hgroup => ?_
    · rw [List.length_cons] at hlimit
      rw [List.length_drop]
      omega
    · have := houter group hgroup
      omega

/-- Reading accepts the lenient dialect, and faults are offsets in the pattern. -/
theorem parse_reads (pattern : String) :
    match parse pattern with
    | .ok _ => Spells .lenient .alternation (Text.bytes pattern) []
    | .error e => e.pattern = pattern ∧ e.position < (Text.bytes pattern).length ∧
        ¬ Spells .lenient .alternation (Text.bytes pattern) [] := by
  have hreads := readFrom_reads 0 .empty [] (Text.bytes pattern) (Nat.zero_add _) nofun
  rw [parse, alternation_iff]
  rcases hread : readFrom 0 .empty [] (Text.bytes pattern) with _ | _ <;> rw [hread] at hreads
  · exact ⟨rfl, hreads⟩
  · exact hreads

/-- A pattern is read exactly if it is an expression of the lenient dialect, so exactly if it is one
of the strict dialect where its numbers are plain. Otherwise the fault is at an offset in it. -/
theorem parse_accepts_lenient (pattern : String) :
    ((∃ r, parse pattern = .ok r) ↔ Spells .lenient .alternation (Text.bytes pattern) []) ∧
      (PlainNumbers (Text.bytes pattern) →
        ((∃ r, parse pattern = .ok r) ↔ Spells .strict .alternation (Text.bytes pattern) [])) ∧
      ∀ e, parse pattern = .error e →
        e.pattern = pattern ∧ e.position < (Text.bytes pattern).length := by
  have hreads := parse_reads pattern
  have haccepts : (∃ r, parse pattern = .ok r) ↔
      Spells .lenient .alternation (Text.bytes pattern) [] := by
    rcases hread : parse pattern with e | r <;> rw [hread] at hreads
    · exact ⟨nofun, fun h => absurd h hreads.2.2⟩
    · exact ⟨fun _ => hreads, fun _ => ⟨r, rfl⟩⟩
  refine ⟨haccepts, fun hplain => haccepts.trans ?_, fun e hread => ?_⟩
  · exact ⟨hplain.agree.spells, hplain.agree.symm.spells⟩
  · rw [hread] at hreads
    exact ⟨hreads.1, hreads.2.1⟩

/-- A class may begin with a bracket and end with a dash, and a count needs its bounds in order. -/
theorem parse_accepts_lenient_group :
    Spells .strict .alternation (Text.bytes "([^]a-f-]|\\x2b\\053)\x7b2,\x7dx+") [] ∧
      ¬ Spells .strict .alternation (Text.bytes "(a\x7b3,2\x7d)") [] := by
  have hgroup : (parse "([^]a-f-]|\\x2b\\053)\x7b2,\x7dx+").isOk = true := by decide +kernel
  have hcount : (parse "(a\x7b3,2\x7d)").isOk = false := by decide +kernel
  constructor
  · refine ((parse_accepts_lenient _).2.1 (by decide +kernel)).1 ?_
    cases hread : parse "([^]a-f-]|\\x2b\\053)\x7b2,\x7dx+" with
    | error => rw [hread] at hgroup; contradiction
    | ok r => exact ⟨r, rfl⟩
  · intro h
    obtain ⟨r, hread⟩ := ((parse_accepts_lenient _).2.1 (by decide +kernel)).2 h
    rw [hread] at hcount
    contradiction

section Divergence

variable {d : Dialect} {rest rest' : List UInt8}

/-- A count whose bounds are out of order is no quantifier, and its brace is no atom either. -/
theorem not_piece_out_of_order {ds es : List UInt8} (hds : Digits ds) (hes : Digits es)
    (hlower : d.lower ds = true) (hlt : numeral 10 es < numeral 10 ds) :
    ¬ Piece d true ('\x7b'.toUInt8 :: (ds ++ ','.toUInt8 :: (es ++ '\x7d'.toUInt8 :: rest)))
      rest' := by
  rintro (⟨-, hquantifier⟩ | ⟨hclosed, -⟩)
  · rcases quantifier_iff.1 hquantifier with ⟨hsign, -⟩ | ⟨-, min, max, hcount, hordered⟩
    · exact absurd hsign (by decide)
    generalize hcs : ds ++ ','.toUInt8 :: (es ++ '\x7d'.toUInt8 :: rest) = cs at hcount
    cases hcount with
    | exactly hds' =>
      have hbytes := (digits_append_inj hds hds' rfl rfl hcs).2.1
      exact absurd hbytes (by decide)
    | atLeast hds' =>
      have htail := (digits_append_inj hds hds' rfl rfl hcs).2.2
      obtain ⟨e, es, rfl⟩ := List.exists_cons_of_ne_nil hes.1
      have hdigit := hes.2 e List.mem_cons_self
      rw [(List.cons.inj htail).1] at hdigit
      exact absurd hdigit (by decide)
    | between hds' _ hes' =>
      obtain ⟨rfl, -, htail⟩ := digits_append_inj hds hds' rfl rfl hcs
      obtain ⟨rfl, -⟩ := digits_append_inj hes hes' rfl rfl htail
      exact Nat.not_le_of_lt hlt (hordered _ rfl)
  · exact hclosed rfl ⟨_, _, _, _, rfl, .between hds hlower hes⟩

theorem exists_hex_of_escape {inClass : Bool} {v : Option UInt8} {cs : List UInt8}
    (h : Escape d inClass v ('x'.toUInt8 :: cs) rest) :
    ∃ a b, cs = a :: b :: rest ∧ d.hex a b = v ∧ v ≠ none := by
  generalize hcs : 'x'.toUInt8 :: cs = cs' at h
  cases h with
  | letter hc =>
    have hne : ∀ entry ∈ letterEscapes, 'x'.toUInt8 ≠ entry.1.toUInt8 := by decide
    exact absurd (List.cons.inj hcs).1 (hne _ hc)
  | backspace => exact absurd (List.cons.inj hcs).1 (by decide)
  | hex hv =>
    cases hcs
    exact ⟨_, _, rfl, hv, nofun⟩
  | octal hne _ hoctal =>
    obtain ⟨c, ds, rfl⟩ := List.exists_cons_of_ne_nil hne
    have hdigit := hoctal c List.mem_cons_self
    rw [← (List.cons.inj hcs).1] at hdigit
    exact absurd hdigit (by decide)
  | control => exact absurd (List.cons.inj hcs).1 (by decide)
  | itself hletter =>
    rw [← (List.cons.inj hcs).1] at hletter
    exact absurd hletter (by decide)

end Divergence

/-- A sign passes for a digit, and a count whose lower bound is too large for its bytes. -/
theorem parse_accepts_signed_and_large :
    ((parse "\\x+1").isOk = true ∧ ¬ Spells .strict .alternation (Text.bytes "\\x+1") []) ∧
      (parse "a\x7b99999999999999999999,5\x7d").isOk = true ∧
        ¬ Spells .strict .alternation (Text.bytes "a\x7b99999999999999999999,5\x7d") [] := by
  refine ⟨⟨by decide +kernel, fun h => ?_⟩, by decide +kernel, fun h => ?_⟩
  · have hbytes : Text.bytes "\\x+1" = ['\\', 'x', '+', '1'].map Char.toUInt8 := by decide +kernel
    rw [hbytes, alternation_iff] at h
    obtain ⟨mid, ⟨h, -⟩ | ⟨-, hatom⟩, -⟩ := (completes_item (n := 0) (by decide)).1 h
    · contradiction
    simp +decide only [atom_iff, false_and, true_and, false_or, or_false] at hatom
    obtain ⟨v, hescape⟩ := hatom
    obtain ⟨a, b, heq, rfl, hv⟩ := exists_hex_of_escape hescape
    cases heq
    exact hv (by decide)
  · have hbytes : Text.bytes "a\x7b99999999999999999999,5\x7d" = 'a'.toUInt8 :: '\x7b'.toUInt8 ::
        (List.replicate 20 '9'.toUInt8 ++ ','.toUInt8 :: (['5'.toUInt8] ++ ['\x7d'.toUInt8])) := by
      decide +kernel
    rw [hbytes, alternation_iff] at h
    obtain ⟨mid, ⟨h, -⟩ | ⟨-, hatom⟩, h⟩ := (completes_item (n := 0) (by decide)).1 h
    · contradiction
    simp +decide only [atom_iff, false_and, true_and, false_or] at hatom
    subst hatom
    obtain ⟨mid, hpiece, -⟩ := (completes_item (by decide)).1 h
    exact not_piece_out_of_order (by decide) (by decide) rfl (by decide) hpiece

end Seedling.Regex
