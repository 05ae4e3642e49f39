import Seedling.Regex.Basic
import Seedling.Automaton.Minimize
import Seedling.Automaton.Recognizer
import Seedling.Automaton.Subset

/-!
From expressions to automata. Each expression becomes a fragment of one growing automaton, with
entry and exit states; fragments are joined by fresh states and edges that read nothing. A
complement is worked out in an automaton of its own, which is then copied in.
-/

namespace Seedling.Regex

open Automaton

structure Fragment where
  starts : List Nat
  finals : List Nat

/-- A chain of states that spells the bytes, from the newest state on. -/
def chain : List UInt8 → Nat → Nfa → Nat × Nfa
  | [], last, nfa => (last, nfa)
  | b :: rest, last, nfa => chain rest nfa.size (nfa.addState.addEdge last b nfa.size)

def bytesBetween (lo hi : UInt8) : List UInt8 :=
  (List.range' lo.toNat (hi.toNat + 1 - lo.toNat)).map Nat.toUInt8

/-- A named state that is reached from every exit of a fragment. -/
def addTag (finals : List Nat) (name : String) (nfa : Nfa) : Nat × Nfa :=
  let mark := nfa.size
  let nfa := nfa.addNamed name
  (mark, { nfa with unmergeable := nfa.unmergeable.insert mark }.addEpsilons finals [mark])

/-- The automaton whose start and final states are those of a fragment. -/
def close (fragment : Fragment) (nfa : Nfa) : Nfa :=
  { nfa with
    start := nfa.start.insertAll fragment.starts
    final := nfa.final.insertAll fragment.finals }

def fragment : Regex → Nfa → Fragment × Nfa
  | .literal bs, nfa =>
      let first := nfa.size
      let (last, nfa) := chain bs first nfa.addState
      (⟨[first], [last]⟩, nfa)
  | .range lo hi, nfa =>
      let start := nfa.size
      let nfa := nfa.addState.addState
      (⟨[start], [start + 1]⟩,
        (bytesBetween lo hi).foldl (fun nfa b => nfa.addEdge start b (start + 1)) nfa)
  | .concat a b, nfa =>
      let (x, nfa) := a.fragment nfa
      let (y, nfa) := b.fragment nfa
      let joiner := nfa.size
      let nfa := nfa.addState.addEpsilons x.finals [joiner]
      (⟨x.starts, y.finals⟩, nfa.addEpsilons [joiner] y.starts)
  | .star a, nfa =>
      let (x, nfa) := a.fragment nfa
      let start := nfa.size
      let stop := start + 1
      let nfa := nfa.addState.addState.addEpsilons [start] x.starts
      let nfa := nfa.addEpsilons x.finals [stop]
      (⟨[start], [stop]⟩, (nfa.addEpsilon start stop).addEpsilon stop start)
  | .or a b, nfa =>
      let (x, nfa) := a.fragment nfa
      let (y, nfa) := b.fragment nfa
      let start := nfa.size
      let stop := start + 1
      let nfa := nfa.addState.addState.addEpsilons [start] (x.starts ++ y.starts)
      (⟨[start], [stop]⟩, nfa.addEpsilons (x.finals ++ y.finals) [stop])
  | .tag a name, nfa =>
      let (x, nfa) := a.fragment nfa
      let (mark, nfa) := addTag x.finals name nfa
      (⟨x.starts, [mark]⟩, nfa)
  | .not a, nfa =>
      let (x, inner) := a.fragment .empty
      let dfa := (determinize (close x inner) none).complement
      let offset := nfa.size
      (⟨[offset], dfa.final.toList.map (· + offset)⟩, nfa.embed dfa.toNfa)

def compile (r : Regex) : Nfa :=
  let (x, nfa) := r.fragment .empty
  close x nfa

/-- One automaton for several named expressions; its final states are the tags, in order. -/
def compileTagged (rules : List (Regex × String)) : Nfa :=
  let (x, nfa) := rules.foldl
    (fun (all, nfa) (r, name) =>
      let (x, nfa) := r.fragment nfa
      let (mark, nfa) := addTag x.finals name nfa
      (⟨all.starts ++ x.starts, all.finals ++ [mark]⟩, nfa))
    ((⟨[], []⟩ : Fragment), Nfa.empty)
  close x nfa

def recognizer (r : Regex) : Recognizer := .ofDfa (determinize r.compile none).minimized

end Seedling.Regex
