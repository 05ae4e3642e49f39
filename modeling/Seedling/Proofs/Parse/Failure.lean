import Mathlib.Order.Lattice
import Mathlib.Order.BoundedOrder.Basic
import Seedling.Parse.Parser

/-!
Failures are ordered by how much they tell: one further on tells more, and at the same position one
that expects more. Of two failures `combine` is the least that tells what both do, so the furthest
failure of a parse is the supremum of all that was reported, in whatever order that was.
-/

namespace Seedling

namespace Failure

instance : LE Failure where
  le f other := f.position < other.position ∨
    f.position = other.position ∧ ∀ label ∈ f.expected, label ∈ other.expected

theorem le_iff {f other : Failure} : f ≤ other ↔ f.position < other.position ∨
    f.position = other.position ∧ ∀ label ∈ f.expected, label ∈ other.expected :=
  Iff.rfl

@[simp] theorem position_combine (f other : Failure) :
    (f.combine other).position = max f.position other.position := by
  rw [combine]
  split
  · omega
  · split
    · dsimp only
      omega
    · omega

theorem mem_expected_combine {f other : Failure} {label : String} :
    label ∈ (f.combine other).expected ↔
      other.position ≤ f.position ∧ label ∈ f.expected ∨
        f.position ≤ other.position ∧ label ∈ other.expected := by
  rw [combine]
  split
  · simp only [show ¬ other.position ≤ f.position by
      omega, show f.position ≤ other.position by omega, false_and, true_and, false_or]
  · split
    · simp only [SortedSet.mem_union, show other.position ≤ f.position by omega,
        show f.position ≤ other.position by omega, true_and]
    · simp only [show ¬ f.position ≤ other.position by
        omega, show other.position ≤ f.position by omega, false_and, true_and, or_false]

instance : SemilatticeSup Failure where
  le_refl f := .inr ⟨rfl, fun _ h => h⟩
  le_trans f g h hfg hgh := by
    rw [le_iff] at hfg hgh ⊢
    rcases hfg with hfg | ⟨hfg, hsub⟩
    · exact .inl (by omega)
    · rcases hgh with hgh | ⟨hgh, hsub'⟩
      · exact .inl (by omega)
      · exact .inr ⟨by omega, fun label hlabel => hsub' label (hsub label hlabel)⟩
  le_antisymm f g hfg hgf := by
    rw [le_iff] at hfg hgf
    rcases hfg with hfg | ⟨hposition, hsub⟩
    · omega
    · rcases hgf with hgf | ⟨-, hsub'⟩
      · omega
      · have hexpected : f.expected = g.expected :=
          SortedSet.ext_mem fun label => ⟨hsub label, hsub' label⟩
        cases f
        cases g
        cases hposition
        cases hexpected
        rfl
  sup := combine
  le_sup_left f g := by
    rw [le_iff, position_combine]
    rcases Nat.lt_or_ge f.position g.position with hlt | hge
    · exact .inl (by omega)
    · exact .inr ⟨by omega, fun label hlabel => mem_expected_combine.2 (.inl ⟨hge, hlabel⟩)⟩
  le_sup_right f g := by
    rw [le_iff, position_combine]
    rcases Nat.lt_or_ge g.position f.position with hlt | hge
    · exact .inl (by omega)
    · exact .inr ⟨by omega, fun label hlabel => mem_expected_combine.2 (.inr ⟨hge, hlabel⟩)⟩
  sup_le f g h hfh hgh := by
    rw [le_iff] at hfh hgh
    rw [le_iff, position_combine]
    rcases Nat.lt_or_ge (max f.position g.position) h.position with hlt | hge
    · exact .inl hlt
    · refine .inr ⟨by omega, fun label hlabel => ?_⟩
      rcases mem_expected_combine.1 hlabel with ⟨hle, hlabel⟩ | ⟨hle, hlabel⟩
      · rcases hfh with hlt | ⟨-, hsub⟩
        · omega
        · exact hsub label hlabel
      · rcases hgh with hlt | ⟨-, hsub⟩
        · omega
        · exact hsub label hlabel

/-- Nothing was reported. -/
instance : OrderBot Failure where
  bot := here 0
  bot_le f := by
    rcases Nat.eq_zero_or_pos f.position with hzero | hpos
    · exact .inr ⟨hzero.symm, fun _ hlabel => absurd hlabel (SortedSet.not_mem_empty _)⟩
    · exact .inl hpos

theorem combine_eq_sup (f other : Failure) : f.combine other = f ⊔ other := rfl

end Failure

@[simp] theorem Session.furthest_fail {ω : Type} (s : Session ω) (f : Failure) :
    (s.fail f).furthest = s.furthest ⊔ f :=
  rfl

/-- A parse that stopped too early reports what it would report had it expected the end of the input
there. -/
theorem Parser.incompleteAt_eq (subject : Subject) (stop : Nat) (furthest : Failure) :
    Parser.incompleteAt subject stop furthest =
      .incomplete stop (furthest ⊔ .expecting stop "end of input").position
        (furthest ⊔ .expecting stop "end of input").expected
        (subject.location (furthest ⊔ .expecting stop "end of input").position) := by
  rw [Parser.incompleteAt, ← Failure.combine_eq_sup, Failure.combine, Failure.expecting]
  rcases Nat.lt_trichotomy furthest.position stop with hlt | rfl | hgt
  · simp only [if_pos hlt, Failure.here, if_true]
    rfl
  · simp only [Nat.lt_irrefl, if_false, if_true]
    have hexpected : furthest.expected.insert "end of input" =
        furthest.expected.union (.singleton "end of input") :=
      SortedSet.ext_mem fun label => by
        rw [SortedSet.mem_insert, SortedSet.mem_union, SortedSet.mem_singleton, or_comm]
    rw [hexpected]
  · simp only [Nat.not_lt_of_gt hgt, (Nat.ne_of_gt hgt), (Nat.ne_of_lt hgt), if_false]

end Seedling
