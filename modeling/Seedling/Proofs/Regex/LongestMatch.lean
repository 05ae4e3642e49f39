import Mathlib.Order.Bounds.Defs
import Seedling.Proofs.Automaton.Minimize
import Seedling.Proofs.Automaton.Recognizer
import Seedling.Proofs.Regex.Combinators
import Seedling.Proofs.Regex.Operators

/-!
From an expression to its longest matches: the automaton recognizes the language, and so do the
deterministic, the minimized and the tabulated one, whose scan stops at the longest word.
-/

namespace Seedling.Regex

open Automaton

/-- Where the words of an expression that stand in the input at `pos` end. -/
def matchEnds (r : Regex) (input : List UInt8) (pos : Nat) : Set Nat :=
  {stop | pos ≤ stop ∧ stop ≤ input.length ∧ (input.take stop).drop pos ∈ r.language}

theorem determinize_compile_valid (r : Regex) : (determinize r.compile none).Valid :=
  determinize_valid none r.compile_wellFormed r.compile_start_lt

theorem minimized_compile_recognize (r : Regex) (w : List UInt8) :
    (determinize r.compile none).minimized.recognize w = true ↔ w ∈ r.language := by
  rw [Dfa.minimized_recognize r.determinize_compile_valid,
    determinize_recognize none r.compile_wellFormed r.compile_start_lt, compile_recognize]

/-- A word of `k` bytes from `pos` on is in the language iff the scan accepts after `k` bytes. -/
theorem add_mem_matchEnds (r : Regex) {input : List UInt8} {pos k : Nat}
    (hk : pos + k ≤ input.length) :
    pos + k ∈ r.matchEnds input pos ↔
      (Recognizer.acceptedAt (determinize r.compile none).minimized 0
        (input.drop pos) k).isSome := by
  rw [← Recognizer.recognize_take, minimized_compile_recognize, List.take_drop]
  exact ⟨fun h => h.2.2, fun h => ⟨Nat.le_add_right pos k, hk, h⟩⟩

theorem longestMatch_isGreatest (r : Regex) {input : List UInt8} {pos : Nat}
    (hpos : pos ≤ input.length) :
    match r.recognizer.longestMatch input pos with
    | .ok m => m.start = pos ∧ IsGreatest (r.matchEnds input pos) m.stop
    | .error _ => r.matchEnds input pos = ∅ := by
  have hspec := Recognizer.longestMatch_spec (Dfa.minimized_valid r.determinize_compile_valid)
    input pos
  rw [List.length_drop] at hspec
  rw [recognizer]
  cases hmatch : (Recognizer.ofDfa (determinize r.compile none).minimized).longestMatch
    input pos with
  | ok m =>
      rw [hmatch] at hspec
      obtain ⟨hstart, k, hk, hstop, haccept, hmax⟩ := hspec
      refine ⟨hstart, ?_, fun stop hmem => ?_⟩
      · rw [hstop, add_mem_matchEnds r (by omega), haccept]
        rfl
      · obtain ⟨j, rfl⟩ := Nat.exists_eq_add_of_le hmem.1
        have hj : pos + j ≤ input.length := hmem.2.1
        rw [hstop]
        refine Nat.add_le_add_left (Nat.le_of_not_lt fun hlt => ?_) pos
        rw [add_mem_matchEnds r hj, hmax j hlt (by omega)] at hmem
        contradiction
  | error i =>
      rw [hmatch] at hspec
      refine Set.eq_empty_of_forall_notMem fun stop hmem => ?_
      obtain ⟨j, rfl⟩ := Nat.exists_eq_add_of_le hmem.1
      have hj : pos + j ≤ input.length := hmem.2.1
      rw [add_mem_matchEnds r hj, hspec j (by omega)] at hmem
      contradiction

/-- The automaton of an expression recognizes exactly the words of its language, and the longest
match at a position ends at the last place where such a word ends. -/
theorem compile_recognize_and_longestMatch (r : Regex) :
    (∀ w, r.compile.recognize w = true ↔ w ∈ r.language) ∧
      ∀ (input : List UInt8) (pos : Nat), pos ≤ input.length →
        match r.recognizer.longestMatch input pos with
        | .ok m => m.start = pos ∧ IsGreatest (r.matchEnds input pos) m.stop
        | .error _ => r.matchEnds input pos = ∅ :=
  ⟨r.compile_recognize, fun _ _ hpos => r.longestMatch_isGreatest hpos⟩

/-- In the bytes `b a a b`, a run of `a` from the second on, which ends after the third. -/
theorem longestMatch_star_literal :
    1 ≤ [98, 97, 97, 98].length ∧
      ∃ m, (star (literal [97])).recognizer.longestMatch [98, 97, 97, 98] 1 = .ok m ∧
        m.start = 1 ∧ m.stop = 3 ∧
        IsGreatest ((star (literal [97])).matchEnds [98, 97, 97, 98] 1) m.stop := by
  have hword : ∀ w, w ∈ (star (literal [97])).language ↔ ∀ b ∈ w, b = 97 := by
    have hbyte : (literal [97]).language = singletons (· = 97) := by
      ext w
      constructor
      · exact fun h => ⟨97, rfl, h⟩
      · rintro ⟨b, rfl, rfl⟩
        rfl
    intro w
    rw [language, hbyte, mem_kstar_singletons]
  have hrun : 3 ∈ (star (literal [97])).matchEnds [98, 97, 97, 98] 1 :=
    ⟨by decide, by decide, (hword _).2 (by simp)⟩
  have hlongest := (compile_recognize_and_longestMatch (star (literal [97]))).2
    [98, 97, 97, 98] 1 (by decide)
  cases hmatch : (star (literal [97])).recognizer.longestMatch [98, 97, 97, 98] 1 with
  | error i =>
      rw [hmatch] at hlongest
      rw [hlongest] at hrun
      exact hrun.elim
  | ok m =>
      rw [hmatch] at hlongest
      obtain ⟨hstart, hmem, hgreatest⟩ := hlongest
      have hle : m.stop ≤ 4 := hmem.2.1
      have hge := hgreatest hrun
      have hne : m.stop ≠ 4 := by
        intro heq
        have hbytes := (hword _).1 hmem.2.2
        rw [heq] at hbytes
        exact absurd hbytes (by simp)
      exact ⟨by decide, m, rfl, hstart, by omega, hmem, hgreatest⟩

end Seedling.Regex
