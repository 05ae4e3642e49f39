import Seedling.Parse.Input
import Seedling.Proofs.Automaton.Minimize
import Seedling.Proofs.Automaton.Recognizer
import Seedling.Proofs.Grammar.LeftEdge
import Seedling.Proofs.Regex.LongestMatch

/-!
Terminals stay inside the input, and one that matches nothing is nullable.
-/

namespace Seedling

theorem Text.length_bytes (s : String) : (Text.bytes s).length = s.utf8ByteSize := rfl

namespace Subject

@[simp] theorem length_ofInput (input : Input) : (ofInput input).length = input.length := by
  cases input with
  | text s => exact Text.length_bytes s
  | tokens ts => simp [ofInput, length, Input.length]

theorem matchTerminal_eq_some {g : Grammar} {input : Input} {id : AtomId} {p stop : Nat}
    {leaf : ParseTree} (h : (ofInput input).matchTerminal g id p = some (stop, leaf)) :
    (∃ t s, input = .text t ∧ g.atoms[id]? = some (.literal s) ∧
      Text.bytes s <+: (Text.bytes t).drop p ∧ stop = p + s.utf8ByteSize ∧
      leaf = .leaf (g.label id) s ((Source.LineIndex.ofBytes (Text.bytes t)).position p)) ∨
    (∃ t pattern m found, input = .text t ∧ g.atoms[id]? = some (.pattern pattern) ∧
      g.matcher? id = some m ∧ m.longestMatch (Text.bytes t) p = .ok found ∧ stop = found.stop ∧
      leaf = .leaf (g.label id) (Text.decode (Source.slice (Text.bytes t) p stop))
        ((Source.LineIndex.ofBytes (Text.bytes t)).position p)) ∨
    ∃ ts name token, input = .tokens ts ∧ g.atoms[id]? = some (.token name) ∧
      ts[p]? = some token ∧ token.name = name ∧ stop = p + 1 ∧
      leaf = .leaf name token.source token.position := by
  cases input with
  | text t =>
      simp only [matchTerminal, ofInput] at h
      split at h
      · rename_i s hsubject hatom
        cases hsubject
        split at h
        · rename_i hprefix
          cases h
          exact .inl ⟨t, s, rfl, hatom, List.isPrefixOf_iff_prefix.1 hprefix, rfl, rfl⟩
        · contradiction
      · rename_i pattern hsubject hatom
        cases hsubject
        obtain ⟨m, hm, h⟩ := Option.bind_eq_some_iff.1 h
        split at h
        · rename_i found hfound
          cases h
          exact .inr (.inl ⟨t, pattern, m, found, rfl, hatom, hm, hfound, rfl, rfl⟩)
        · contradiction
      · contradiction
      · contradiction
  | tokens ts =>
      simp only [matchTerminal, ofInput] at h
      split at h
      · contradiction
      · contradiction
      · rename_i name hsubject hatom
        cases hsubject
        obtain ⟨token, htoken, h⟩ := Option.bind_eq_some_iff.1 h
        split at h
        · rename_i hname
          cases h
          exact .inr (.inr ⟨ts, name, token, rfl, hatom, by simpa using htoken, hname, rfl, rfl⟩)
        · contradiction
      · contradiction

end Subject

namespace Grammar

variable {g : Grammar} {id : AtomId} {p stop : Nat} {leaf : ParseTree}

/-- A matcher stops inside the bytes, and where it started only if its expression matches
nothing. -/
theorem WellFormed.longestMatch_stop (hg : g.WellFormed) {m : Automaton.Recognizer}
    (hm : g.matcher? id = some m) {bytes : List UInt8} (hp : p ≤ bytes.length)
    {found : Automaton.Match} (hfound : m.longestMatch bytes p = .ok found) :
    p ≤ found.stop ∧ found.stop ≤ bytes.length ∧ (found.stop = p → m.dfa.isFinal 0 = true) := by
  obtain ⟨pattern, r, -, -, rfl⟩ := hg.matcher hm
  have hspec := Automaton.Recognizer.longestMatch_spec
    (Automaton.Dfa.minimized_valid r.determinize_compile_valid) bytes p
  rw [Regex.recognizer] at hfound
  rw [hfound, List.length_drop] at hspec
  obtain ⟨-, k, hk, hstop, haccept, -⟩ := hspec
  refine ⟨by omega, by omega, fun heq => ?_⟩
  obtain rfl : k = 0 := by omega
  rw [Automaton.Recognizer.acceptedAt_zero] at haccept
  split at haccept
  · assumption
  · contradiction

theorem WellFormed.matchTerminal_stop (hg : g.WellFormed) {input : Input} (hp : p ≤ input.length)
    (h : (Subject.ofInput input).matchTerminal g id p = some (stop, leaf)) (known : Array Bool) :
    p ≤ stop ∧ stop ≤ input.length ∧ (stop = p → g.nullableStep known id = true) := by
  rcases Subject.matchTerminal_eq_some h with ⟨t, s, rfl, hatom, hprefix, rfl, -⟩ |
    ⟨t, pattern, m, found, rfl, hatom, hm, hfound, rfl, -⟩ |
    ⟨ts, name, token, rfl, hatom, htoken, -, rfl, -⟩
  · have hlen := hprefix.length_le
    rw [List.length_drop, Text.length_bytes, Text.length_bytes] at hlen
    change p ≤ t.utf8ByteSize at hp
    refine ⟨Nat.le_add_right p _, ?_, fun heq => ?_⟩
    · show p + s.utf8ByteSize ≤ t.utf8ByteSize
      omega
    · have hzero : s.utf8ByteSize = 0 := by omega
      simp only [nullableStep, hatom]
      rwa [String.isEmpty_iff_utf8ByteSize_eq_zero]
  · have hp' : p ≤ (Text.bytes t).length := hp
    obtain ⟨hle, hlen, hnull⟩ := hg.longestMatch_stop hm hp' hfound
    refine ⟨hle, hlen, fun heq => ?_⟩
    simp only [nullableStep, hatom, hm]
    exact hnull heq
  · have hlt := (List.getElem?_eq_some_iff.1 htoken).1
    exact ⟨Nat.le_succ p, hlt, fun heq => absurd heq (Nat.succ_ne_self p)⟩

end Grammar

end Seedling
