/-!
Finite sets kept as strictly ascending lists. The order is part of the type, so two sets with the
same members are equal and a set can be written down in one way only.
-/

namespace Seedling

structure SortedSet (α : Type) [LT α] where
  toList : List α
  sorted : toList.Pairwise (· < ·)
deriving DecidableEq

namespace SortedSet

section Lists

variable {α : Type} [LT α] [LE α] [DecidableLT α]

/-- Puts `a` at its place in an ascending list, unless it is there already. -/
def insertSorted (a : α) : List α → List α
  | [] => [a]
  | b :: bs => if a < b then a :: b :: bs else if b < a then b :: insertSorted a bs else b :: bs

variable [Std.IsLinearOrder α] [Std.LawfulOrderLT α]

theorem mem_insertSorted {a x : α} {l : List α} : x ∈ insertSorted a l ↔ x = a ∨ x ∈ l := by
  induction l with
  | nil => simp [insertSorted]
  | cons b bs ih =>
      simp only [insertSorted]
      split
      · simp
      · split
        · simp only [List.mem_cons, ih]
          constructor
          · rintro (h | h | h) <;> simp [h]
          · rintro (h | h | h) <;> simp [h]
        · rename_i hab hba
          have : a = b := Std.le_antisymm (Std.not_lt.1 hba) (Std.not_lt.1 hab)
          subst this
          simp

theorem pairwise_insertSorted {a : α} {l : List α} (h : l.Pairwise (· < ·)) :
    (insertSorted a l).Pairwise (· < ·) := by
  induction l with
  | nil => simp [insertSorted]
  | cons b bs ih =>
      obtain ⟨hb, hbs⟩ := List.pairwise_cons.1 h
      simp only [insertSorted]
      split
      · rename_i hab
        refine List.pairwise_cons.2 ⟨fun x hx => ?_, h⟩
        rcases List.mem_cons.1 hx with rfl | hx
        · exact hab
        · exact Std.lt_trans hab (hb x hx)
      · split
        · rename_i hba
          refine List.pairwise_cons.2 ⟨fun x hx => ?_, ih hbs⟩
          rcases mem_insertSorted.1 hx with rfl | hx
          · exact hba
          · exact hb x hx
        · exact h

end Lists

variable {α : Type} [LT α]

def empty : SortedSet α := ⟨[], .nil⟩

instance : EmptyCollection (SortedSet α) := ⟨empty⟩

instance : Inhabited (SortedSet α) := ⟨empty⟩

instance : Membership α (SortedSet α) := ⟨fun s a => a ∈ s.toList⟩

instance [DecidableEq α] (a : α) (s : SortedSet α) : Decidable (a ∈ s) :=
  inferInstanceAs (Decidable (a ∈ s.toList))

instance [Hashable α] : Hashable (SortedSet α) := ⟨fun s => hash s.toList⟩

def size (s : SortedSet α) : Nat := s.toList.length

def isEmpty (s : SortedSet α) : Bool := s.toList.isEmpty

def contains [DecidableEq α] (s : SortedSet α) (a : α) : Bool := decide (a ∈ s)

def filter (p : α → Bool) (s : SortedSet α) : SortedSet α :=
  ⟨s.toList.filter p, s.sorted.filter p⟩

@[simp] theorem mem_toList {a : α} {s : SortedSet α} : a ∈ s.toList ↔ a ∈ s := Iff.rfl

@[simp] theorem not_mem_empty (a : α) : ¬ a ∈ (empty : SortedSet α) := List.not_mem_nil

@[simp] theorem mem_filter {a : α} {p : α → Bool} {s : SortedSet α} :
    a ∈ s.filter p ↔ a ∈ s ∧ p a = true :=
  List.mem_filter

variable [LE α] [DecidableLT α] [Std.IsLinearOrder α] [Std.LawfulOrderLT α]

def insert (a : α) (s : SortedSet α) : SortedSet α :=
  ⟨insertSorted a s.toList, pairwise_insertSorted s.sorted⟩

def insertAll (s : SortedSet α) (l : List α) : SortedSet α := l.foldl (fun s a => s.insert a) s

def ofList (l : List α) : SortedSet α := insertAll empty l

def singleton (a : α) : SortedSet α := insert a empty

def union (s t : SortedSet α) : SortedSet α := insertAll s t.toList

@[simp] theorem mem_insert {a b : α} {s : SortedSet α} : a ∈ s.insert b ↔ a = b ∨ a ∈ s :=
  mem_insertSorted

@[simp] theorem mem_insertAll {a : α} {s : SortedSet α} {l : List α} :
    a ∈ s.insertAll l ↔ a ∈ l ∨ a ∈ s := by
  induction l generalizing s with
  | nil => simp [insertAll]
  | cons b l ih =>
      change a ∈ (s.insert b).insertAll l ↔ _
      simp [ih, or_left_comm, or_assoc]

@[simp] theorem mem_ofList {a : α} {l : List α} : a ∈ ofList l ↔ a ∈ l := by simp [ofList]

@[simp] theorem mem_singleton {a b : α} : a ∈ (singleton b : SortedSet α) ↔ a = b := by
  simp [singleton]

@[simp] theorem mem_union {a : α} {s t : SortedSet α} : a ∈ s.union t ↔ a ∈ s ∨ a ∈ t := by
  simp [union, or_comm]

omit [DecidableLT α] in
/-- A sorted set is determined by its members. -/
theorem ext_mem {s t : SortedSet α} (h : ∀ a, a ∈ s ↔ a ∈ t) : s = t := by
  obtain ⟨l, hl⟩ := s
  obtain ⟨m, hm⟩ := t
  suffices l = m by subst this; rfl
  change ∀ a, a ∈ l ↔ a ∈ m at h
  induction l generalizing m with
  | nil =>
      cases m with
      | nil => rfl
      | cons b m => exact absurd ((h b).2 (by simp)) (by simp)
  | cons a l ih =>
      cases m with
      | nil => exact absurd ((h a).1 (by simp)) (by simp)
      | cons b m =>
          obtain ⟨ha, hl₁⟩ := List.pairwise_cons.1 hl
          obtain ⟨hb, hm₁⟩ := List.pairwise_cons.1 hm
          have hab : a = b := by
            rcases List.mem_cons.1 ((h a).1 (by simp)) with hab | hab
            · exact hab
            rcases List.mem_cons.1 ((h b).2 (by simp)) with hba | hba
            · exact hba.symm
            exact absurd (Std.lt_trans (ha b hba) (hb a hab)) Std.lt_irrefl
          subst hab
          have hrest : ∀ x, x ∈ l ↔ x ∈ m := by
            intro x
            constructor
            · intro hx
              rcases List.mem_cons.1 ((h x).1 (by simp [hx])) with rfl | hx'
              · exact absurd (ha x hx) Std.lt_irrefl
              · exact hx'
            · intro hx
              rcases List.mem_cons.1 ((h x).2 (by simp [hx])) with rfl | hx'
              · exact absurd (hb x hx) Std.lt_irrefl
              · exact hx'
          rw [ih hl₁ m hm₁ hrest]

end SortedSet

end Seedling
