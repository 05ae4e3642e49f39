import Seedling.SortedSet
import Std.Data.TreeSet

/-!
What can be reached from some numbers along edges. The search keeps the numbers still to be looked
at in a list; each one enters the list at most once, so a bound on how many there are bounds the
search.
-/

namespace Seedling.Reachability

/-- The numbers in a search tree. -/
def members (tree : Std.TreeSet Nat) : SortedSet Nat :=
  ⟨tree.toList, tree.ordered_toList.imp Nat.compare_eq_lt.1⟩

@[simp] theorem mem_members {n : Nat} {tree : Std.TreeSet Nat} : n ∈ members tree ↔ n ∈ tree :=
  Std.TreeSet.mem_toList

/-- Looks at the numbers in `pending`, adding to both collections the successors not seen before. -/
def explore (next : Nat → SortedSet Nat) : Nat → List Nat → Std.TreeSet Nat → Std.TreeSet Nat
  | 0, _, seen => seen
  | _ + 1, [], seen => seen
  | bound + 1, n :: pending, seen =>
      let fresh := (next n).toList.filter fun m => !seen.contains m
      explore next bound (fresh ++ pending) (seen.insertMany fresh)

/-- The numbers reachable from `seeds`, themselves included, when all successors are below
`count`. -/
def closure (next : Nat → SortedSet Nat) (count : Nat) (seeds : SortedSet Nat) : SortedSet Nat :=
  members (explore next (count + seeds.size + 1) seeds.toList (.ofList seeds.toList))

end Seedling.Reachability
