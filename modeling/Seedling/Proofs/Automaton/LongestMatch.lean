import Mathlib.Order.Bounds.Basic
import Seedling.Proofs.Automaton.Recognizer

/-!
Longest matches in terms of runs. What a scan of the table finds is the last place where a run
from the start comes to a final state, or else the first byte that the run does not get past.

A table may be kept in words of 32 bits if there are fewer states than words: then no state is
cut short, and none is taken for the word that stands for no state.
-/

namespace Seedling.Automaton.Recognizer

variable {d : Dfa}

/-! ### Words -/

def deadWord : UInt32 := 0xffffffff

/-- A place of the table as a word, which has room for the low bits of a state only. -/
def toWord : Option Nat → UInt32
  | none => deadWord
  | some s => s.toUInt32

def ofWord (w : UInt32) : Option Nat := if w = deadWord then none else some w.toNat

/-- The recognizer that reads its table from words. -/
def inWords (r : Recognizer) : Recognizer := { r with table := (r.table.map toWord).map ofWord }

theorem ofWord_toWord {place : Option Nat} (h : ∀ s, place = some s → s + 1 < UInt32.size) :
    ofWord (toWord place) = place := by
  cases place with
  | none => rfl
  | some s =>
      have hs := h s rfl
      have hlow : s.toUInt32.toNat = s := Nat.mod_eq_of_lt (Nat.lt_of_succ_lt hs)
      have hne : s.toUInt32 ≠ deadWord := by
        intro heq
        rw [heq] at hlow
        have hdead : deadWord.toNat = UInt32.size - 1 := rfl
        omega
      rw [toWord, ofWord, if_neg hne, hlow]

theorem lt_of_mem_table (hd : d.Valid) {s : Nat} (h : some s ∈ (ofDfa d).table) : s < d.size := by
  obtain ⟨table, htable, hs⟩ := Array.mem_flatten.1 h
  obtain ⟨row, hrow, rfl⟩ := Array.mem_map.1 htable
  obtain ⟨i, hi⟩ := Array.getElem?_of_mem hs
  obtain ⟨t, ht⟩ := Array.getElem?_of_mem hrow
  have hlt : i < 256 := by
    have hsize := (Array.getElem?_eq_some_iff.1 hi).1
    rwa [rowTable_size] at hsize
  have hbyte : i.toUInt8.toNat = i := Nat.mod_eq_of_lt hlt
  have hget := getElem?_rowTable row i.toUInt8
  rw [hbyte, hi, Option.some.injEq] at hget
  refine hd.next_lt (s := t) (b := i.toUInt8) ?_
  rw [Dfa.next?, Dfa.row, ht, hget]
  rfl

/-- With fewer states than words a table is read from words as it is. -/
theorem inWords_ofDfa (hd : d.Valid) (hsize : d.size < UInt32.size) :
    (ofDfa d).inWords = ofDfa d := by
  have htable : ((ofDfa d).table.map toWord).map ofWord = (ofDfa d).table := by
    rw [Array.map_map]
    refine (Array.map_congr_left fun place hplace => ?_).trans (Array.map_id _)
    refine ofWord_toWord fun s hs => ?_
    exact Nat.lt_of_le_of_lt (lt_of_mem_table hd (hs ▸ hplace)) hsize
  rw [inWords, htable]

/-! ### Runs -/

variable {input : List UInt8} {pos : Nat}

/-- Where a run that starts at `pos` is in a final state. -/
def acceptedEnds (d : Dfa) (input : List UInt8) (pos : Nat) : Set Nat :=
  {stop | pos ≤ stop ∧ stop ≤ input.length ∧
    ∃ s, d.run 0 ((input.take stop).drop pos) = some s ∧ s ∈ d.final}

/-- Where a run that starts at `pos` does not go on: at the end, or before a byte that leads
nowhere. -/
def deadEnds (d : Dfa) (input : List UInt8) (pos : Nat) : Set Nat :=
  {i | pos ≤ i ∧ (i = input.length ∨ ∃ s b, d.run 0 ((input.take i).drop pos) = some s ∧
    input[i]? = some b ∧ d.next? s b = none)}

theorem acceptedAt_drop (k s : Nat) :
    acceptedAt d 0 (input.drop pos) k = some s ↔
      d.run 0 ((input.take (pos + k)).drop pos) = some s ∧ s ∈ d.final := by
  rw [acceptedAt, List.take_drop, Option.filter_eq_some_iff, Dfa.isFinal_iff]

theorem add_mem_acceptedEnds {k : Nat} (hk : pos + k ≤ input.length) :
    pos + k ∈ acceptedEnds d input pos ↔ acceptedAt d 0 (input.drop pos) k ≠ none := by
  rw [Option.ne_none_iff_exists']
  simp only [acceptedAt_drop]
  exact ⟨fun h => h.2.2, fun h => ⟨Nat.le_add_right pos k, hk, h⟩⟩

theorem run_take_succ {w : List UInt8} {k : Nat} {b : UInt8} (hb : w[k]? = some b) :
    d.run 0 (w.take (k + 1)) = (d.run 0 (w.take k)).bind fun s => d.next? s b := by
  rw [List.take_add_one, hb, Dfa.run_append]
  simp

theorem add_mem_deadEnds_iff {k : Nat} (hpos : pos ≤ input.length) :
    pos + k ∈ deadEnds d input pos ↔ k = (input.drop pos).length ∨
      ∃ s b, d.run 0 ((input.drop pos).take k) = some s ∧ (input.drop pos)[k]? = some b ∧
        d.next? s b = none := by
  have hend : pos + k = input.length ↔ k = (input.drop pos).length := by
    rw [List.length_drop]
    omega
  rw [List.getElem?_drop, List.take_drop, ← hend]
  exact and_iff_right (Nat.le_add_right pos k)

/-- The first place that reading does not get past is the first dead end. -/
theorem isLeast_deadEnds_of_readable {k : Nat} (hpos : pos ≤ input.length)
    (h : IsLeast (readable d 0 (input.drop pos)) k) : IsLeast (deadEnds d input pos) (pos + k) := by
  obtain ⟨hk, hleast⟩ := h
  constructor
  · rw [add_mem_deadEnds_iff hpos]
    rcases Nat.lt_or_ge k (input.drop pos).length with hlt | hge
    · have hb := List.getElem?_eq_getElem hlt
      -- Up to here there is a run, since no earlier place is readable.
      have hrun : ∃ s, d.run 0 ((input.drop pos).take k) = some s := by
        rw [← Option.ne_none_iff_exists']
        intro hnone
        cases k with
        | zero => contradiction
        | succ j => exact absurd (hleast (.inr hnone)) (Nat.not_succ_le_self j)
      obtain ⟨s, hs⟩ := hrun
      rcases hk with hk | hk
      · exact .inl hk
      · rw [run_take_succ hb, hs] at hk
        exact .inr ⟨s, _, hs, hb, hk⟩
    · exact .inl (Nat.le_antisymm (hleast (.inl rfl)) hge)
  · intro i hi
    obtain ⟨j, rfl⟩ := Nat.exists_eq_add_of_le hi.1
    refine Nat.add_le_add_left (hleast ?_) pos
    rcases (add_mem_deadEnds_iff hpos).1 hi with hj | ⟨s, b, hs, hb, hnone⟩
    · exact .inl hj
    · refine .inr ?_
      rw [run_take_succ hb, hs]
      exact hnone

structure IsLongest (d : Dfa) (input : List UInt8) (pos : Nat) (m : Match) : Prop where
  start : m.start = pos
  stop : IsGreatest (acceptedEnds d input pos) m.stop
  state : d.run 0 ((input.take m.stop).drop pos) = some m.state

theorem IsLongest.unique {m m' : Match} (h : IsLongest d input pos m)
    (h' : IsLongest d input pos m') : m = m' := by
  obtain ⟨start, stop, state⟩ := m
  obtain ⟨start', stop', state'⟩ := m'
  obtain rfl : stop = stop' := h.stop.unique h'.stop
  obtain rfl : start = start' := h.start.trans h'.start.symm
  obtain rfl : state = state' := Option.some.inj (h.state.symm.trans h'.state)
  rfl

theorem isLongest_of_longestMatch (hd : d.Valid) (hpos : pos ≤ input.length) {m : Match}
    (h : (ofDfa d).longestMatch input pos = .ok m) : IsLongest d input pos m := by
  have hspec := longestMatch_spec hd input pos
  rw [h, List.length_drop] at hspec
  obtain ⟨hstart, k, hk, hstop, haccepted, hlonger⟩ := hspec
  have hle : pos + k ≤ input.length := by omega
  refine ⟨hstart, ⟨?_, fun stop hmem => ?_⟩, ?_⟩
  · rw [hstop, add_mem_acceptedEnds hle, haccepted]
    simp
  · obtain ⟨j, rfl⟩ := Nat.exists_eq_add_of_le hmem.1
    have hj : pos + j ≤ input.length := hmem.2.1
    rw [hstop]
    refine Nat.add_le_add_left (Nat.le_of_not_lt fun hlt => ?_) pos
    exact (add_mem_acceptedEnds hj).1 hmem (hlonger j hlt (by omega))
  · rw [hstop]
    exact ((acceptedAt_drop k m.state).1 haccepted).1

theorem acceptedEnds_eq_empty (hd : d.Valid) {i : Nat}
    (h : (ofDfa d).longestMatch input pos = .error i) : acceptedEnds d input pos = ∅ := by
  have hspec := longestMatch_spec hd input pos
  rw [h, List.length_drop] at hspec
  refine Set.eq_empty_of_forall_notMem fun stop hmem => ?_
  obtain ⟨k, rfl⟩ := Nat.exists_eq_add_of_le hmem.1
  have hk : pos + k ≤ input.length := hmem.2.1
  exact (add_mem_acceptedEnds hk).1 hmem (hspec k (by omega))

theorem longestMatch_eq_ok_iff (hd : d.Valid) (hpos : pos ≤ input.length) {m : Match} :
    (ofDfa d).longestMatch input pos = .ok m ↔ IsLongest d input pos m := by
  refine ⟨isLongest_of_longestMatch hd hpos, fun h => ?_⟩
  cases hmatch : (ofDfa d).longestMatch input pos with
  | ok m' => rw [h.unique (isLongest_of_longestMatch hd hpos hmatch)]
  | error i =>
      have hmem := h.stop.1
      rw [acceptedEnds_eq_empty hd hmatch] at hmem
      exact hmem.elim

theorem longestMatch_eq_error_iff (hd : d.Valid) (hpos : pos ≤ input.length) {i : Nat} :
    (ofDfa d).longestMatch input pos = .error i ↔
      acceptedEnds d input pos = ∅ ∧ IsLeast (deadEnds d input pos) i := by
  have hleast : ∀ {i}, (ofDfa d).longestMatch input pos = .error i →
      IsLeast (deadEnds d input pos) i := by
    intro i h
    obtain ⟨k, rfl, hk⟩ := longestMatch_error h
    exact isLeast_deadEnds_of_readable hpos hk
  refine ⟨fun h => ⟨acceptedEnds_eq_empty hd h, hleast h⟩, ?_⟩
  rintro ⟨hempty, hi⟩
  cases hmatch : (ofDfa d).longestMatch input pos with
  | ok m =>
      have hmem := (isLongest_of_longestMatch hd hpos hmatch).stop.1
      rw [hempty] at hmem
      exact hmem.elim
  | error j => rw [(hleast hmatch).unique hi]

theorem isMatch_ofDfa (hd : d.Valid) (input : List UInt8) :
    (ofDfa d).isMatch input = d.recognize input := by
  have hwhole : input.length ∈ acceptedEnds d input 0 ↔ d.recognize input = true := by
    rw [Dfa.recognize_iff, acceptedEnds, Set.mem_ofPred_eq, List.take_length, List.drop_zero]
    exact ⟨fun h => h.2.2, fun h => ⟨Nat.zero_le _, Nat.le_refl _, h⟩⟩
  rw [Bool.eq_iff_iff, ← hwhole, isMatch]
  cases hmatch : (ofDfa d).longestMatch input 0 with
  | ok m =>
      have hstop := (isLongest_of_longestMatch hd (Nat.zero_le _) hmatch).stop
      rw [decide_eq_true_eq]
      exact ⟨fun h => h ▸ hstop.1, fun h => Nat.le_antisymm hstop.1.2.1 (hstop.2 h)⟩
  | error i => simp [acceptedEnds_eq_empty hd hmatch]

/-- Read from words, the table of an automaton with fewer than 2 ^ 32 states gives the longest
match that the runs of the automaton have, with its last state. Without a match it tells the
first place where the run does not go on. The whole input matches just when the automaton
recognizes it. -/
theorem longestMatch_eq_iff_run (hd : d.Valid) (hsize : d.size < UInt32.size) (input : List UInt8) :
    (∀ pos ≤ input.length,
      (∀ m, (ofDfa d).inWords.longestMatch input pos = .ok m ↔ IsLongest d input pos m) ∧
        ∀ i, (ofDfa d).inWords.longestMatch input pos = .error i ↔
          acceptedEnds d input pos = ∅ ∧ IsLeast (deadEnds d input pos) i) ∧
      (ofDfa d).inWords.isMatch input = d.recognize input ∧ (ofDfa d).inWords = ofDfa d := by
  rw [inWords_ofDfa hd hsize]
  exact ⟨fun pos hpos => ⟨fun _ => longestMatch_eq_ok_iff hd hpos,
    fun _ => longestMatch_eq_error_iff hd hpos⟩, isMatch_ofDfa hd input, rfl⟩

def aOrAbc : Dfa where
  names := #["0", "1", "2", "3"]
  rows := #[.ofList [(97, 1)], .ofList [(98, 2)], .ofList [(99, 3)], .empty]
  final := .ofList [1, 3]
  unmergeable := .empty

/-- In `xabab` the scan from the second byte on reads `ab`, of which only `a` is a match; in `b`
it stops at once. -/
theorem longestMatch_aOrAbc :
    aOrAbc.Valid ∧ aOrAbc.size < UInt32.size ∧
      IsLongest aOrAbc [120, 97, 98, 97, 98] 1 ⟨1, 2, 1⟩ ∧
      (acceptedEnds aOrAbc [98] 0 = ∅ ∧ IsLeast (deadEnds aOrAbc [98] 0) 0) ∧
      (ofDfa aOrAbc).inWords.isMatch [97, 98, 99] = true := by
  have hparts : Dfa.ofParts aOrAbc.names aOrAbc.rows aOrAbc.final aOrAbc.unmergeable =
      .ok aOrAbc := by
    with_unfolding_all rfl
  have hvalid := Dfa.valid_of_ofParts hparts
  have hsize : aOrAbc.size < UInt32.size := by decide
  have hruns := longestMatch_eq_iff_run hvalid hsize
  have hnext : aOrAbc.next? 0 97 = some 1 ∧ aOrAbc.next? 1 98 = some 2 ∧ aOrAbc.next? 2 97 = none ∧
      aOrAbc.next? 0 98 = none := by decide
  have hfinal : aOrAbc.isFinal 0 = false ∧ aOrAbc.isFinal 1 = true ∧
      aOrAbc.isFinal 2 = false := by decide
  have hscan : ∀ r : Recognizer, (∀ s b, r.next? s b = aOrAbc.next? s b) →
      (∀ s, r.accepts s = aOrAbc.isFinal s) →
      r.longestMatch [120, 97, 98, 97, 98] 1 = .ok ⟨1, 2, 1⟩ ∧
        r.longestMatch [98] 0 = .error 0 := by
    intro r hr haccepts
    simp [longestMatch, scan, hr, haccepts, hnext, hfinal]
  obtain ⟨hfound, hnone⟩ := hscan _ (next?_ofDfa aOrAbc) (accepts_ofDfa hvalid)
  rw [← inWords_ofDfa hvalid hsize] at hfound hnone
  refine ⟨hvalid, hsize, (((hruns _).1 1 (by decide)).1 _).1 hfound,
    (((hruns _).1 0 (by decide)).2 _).1 hnone, ?_⟩
  rw [(hruns _).2.1]
  decide

end Seedling.Automaton.Recognizer
