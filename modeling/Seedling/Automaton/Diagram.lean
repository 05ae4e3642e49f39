import Seedling.Automaton.Dfa
import Seedling.ByteRuns
import Seedling.Text.Quoted

/-!
Automata as Graphviz graphs: final states have a double circle, unmergeable ones a bold outline, and
the bytes that lead from one state to another share one edge.
-/

namespace Seedling.Automaton

def dotEscape (s : String) : String :=
  String.join (s.toList.map fun c =>
    if c = '\\' then "\\\\" else if c = '"' then "\\\"" else String.singleton c)

def dotByte (b : UInt8) : String :=
  if b = 0x22 then "\\\""
  else if b = 0x5c then "\\\\"
  else if 0x21 ≤ b && b ≤ 0x7e then String.singleton (Char.ofNat b.toNat)
  else "\\\\x" ++ Text.hexByte b

/-- The label of an edge: its bytes, neighbours written as a range. -/
def dotBytes (bs : List UInt8) : String :=
  " ".intercalate ((byteRuns bs).map fun (lo, hi) =>
    if lo < hi then dotByte lo ++ "-" ++ dotByte hi else dotByte lo)

def dotState (name : String) (final unmergeable : StateSet) (s : Nat) : String :=
  let shape := if final.contains s then "doublecircle" else "circle"
  let style := if unmergeable.contains s then ", style=bold" else ""
  s!"  {s} [label=\"" ++ dotEscape name ++ "\", shape=" ++ shape ++ style ++ "];\n"

/-- The bytes that lead to each target, targets and bytes ascending. -/
def byTarget (edges : List (UInt8 × Nat)) : SortedMap Nat (List UInt8) :=
  edges.foldr (fun (b, t) groups => groups.upsert t fun bs => b :: bs.getD []) .empty

def dotEdges (s : Nat) (edges : List (UInt8 × Nat)) : String :=
  String.join ((byTarget edges).toList.map fun (t, bs) =>
    s!"  {s} -> {t} [label=\"" ++ dotBytes bs ++ "\"];\n")

def Nfa.toDot (nfa : Nfa) : String :=
  let states := (List.range nfa.size).map fun s =>
    dotState (nfa.name s) nfa.final nfa.unmergeable s
  let starts := nfa.start.toList.zipIdx.map fun (s, i) =>
    s!"  start{i} [shape=point];\n  start{i} -> {s};\n"
  let edges := (List.range nfa.size).map fun s =>
    dotEdges s ((nfa.row s).toList.flatMap fun (b, targets) => targets.toList.map (b, ·)) ++
      String.join ((nfa.epsilon s).toList.map fun t => s!"  {s} -> {t} [style=dashed];\n")
  "digraph nfa \x7b\n  rankdir=LR;\n" ++ String.join states ++ String.join starts ++
    String.join edges ++ "\x7d\n"

def Dfa.toDot (d : Dfa) : String :=
  let states := (List.range d.size).map fun s => dotState (d.name s) d.final d.unmergeable s
  let edges := d.rows.toList.zipIdx.map fun (row, s) => dotEdges s row.toList
  "digraph dfa \x7b\n  rankdir=LR;\n  start [shape=point];\n  start -> 0;\n" ++
    String.join states ++ String.join edges ++ "\x7d\n"

end Seedling.Automaton
