/-!
Finite maps kept as lists of pairs with strictly ascending keys: one list for each map, written in
the order of its keys.
-/

namespace Seedling

structure SortedMap (κ ν : Type) [LT κ] where
  toList : List (κ × ν)
  sorted : toList.Pairwise (fun p q => p.1 < q.1)
deriving DecidableEq

namespace SortedMap

section Lists

variable {κ ν : Type} [LT κ] [DecidableLT κ]

/-- Replaces the value `v?` at key `k` by `f v?`, keeping the keys in order. -/
def upsertSorted (k : κ) (f : Option ν → ν) : List (κ × ν) → List (κ × ν)
  | [] => [(k, f none)]
  | (k', v) :: rest =>
      if k < k' then (k, f none) :: (k', v) :: rest
      else if k' < k then (k', v) :: upsertSorted k f rest
      else (k', f (some v)) :: rest

/-- The union of two ascending lists; `f` joins the two values of a shared key. -/
def mergeSorted (f : ν → ν → ν) : List (κ × ν) → List (κ × ν) → List (κ × ν)
  | [], ys => ys
  | x :: xs, [] => x :: xs
  | (a, x) :: xs, (b, y) :: ys =>
      if a < b then (a, x) :: mergeSorted f xs ((b, y) :: ys)
      else if b < a then (b, y) :: mergeSorted f ((a, x) :: xs) ys
      else (a, f x y) :: mergeSorted f xs ys
termination_by xs ys => xs.length + ys.length

theorem key_of_mem_upsertSorted {k : κ} {f : Option ν → ν} {l : List (κ × ν)} {p : κ × ν}
    (h : p ∈ upsertSorted k f l) : p.1 = k ∨ ∃ q ∈ l, p.1 = q.1 := by
  induction l with
  | nil => simp_all [upsertSorted]
  | cons q rest ih =>
      obtain ⟨k', v⟩ := q
      simp only [upsertSorted] at h
      split at h
      · rcases List.mem_cons.1 h with rfl | h
        · exact .inl rfl
        · exact .inr ⟨p, h, rfl⟩
      · split at h
        · rcases List.mem_cons.1 h with rfl | h
          · exact .inr ⟨(k', v), by simp, rfl⟩
          · rcases ih h with h | ⟨q, hq, h⟩
            · exact .inl h
            · exact .inr ⟨q, by simp [hq], h⟩
        · rcases List.mem_cons.1 h with rfl | h
          · exact .inr ⟨(k', v), by simp, rfl⟩
          · exact .inr ⟨p, by simp [h], rfl⟩

theorem key_of_mem_mergeSorted {f : ν → ν → ν} {l m : List (κ × ν)} {p : κ × ν}
    (h : p ∈ mergeSorted f l m) : (∃ q ∈ l, p.1 = q.1) ∨ ∃ q ∈ m, p.1 = q.1 := by
  fun_induction mergeSorted f l m with
  | case1 ys => exact .inr ⟨p, h, rfl⟩
  | case2 x xs => exact .inl ⟨p, h, rfl⟩
  | case3 a x xs b y ys hab ih =>
      rcases List.mem_cons.1 h with rfl | h
      · exact .inl ⟨(a, x), by simp, rfl⟩
      · rcases ih h with ⟨q, hq, h⟩ | h
        · exact .inl ⟨q, by simp [hq], h⟩
        · exact .inr h
  | case4 a x xs b y ys hab hba ih =>
      rcases List.mem_cons.1 h with rfl | h
      · exact .inr ⟨(b, y), by simp, rfl⟩
      · rcases ih h with h | ⟨q, hq, h⟩
        · exact .inl h
        · exact .inr ⟨q, by simp [hq], h⟩
  | case5 a x xs b y ys hab hba ih =>
      rcases List.mem_cons.1 h with rfl | h
      · exact .inl ⟨(a, x), by simp, rfl⟩
      · rcases ih h with ⟨q, hq, h⟩ | ⟨q, hq, h⟩
        · exact .inl ⟨q, by simp [hq], h⟩
        · exact .inr ⟨q, by simp [hq], h⟩

variable [LE κ] [Std.IsLinearOrder κ] [Std.LawfulOrderLT κ]

theorem pairwise_upsertSorted {k : κ} {f : Option ν → ν} {l : List (κ × ν)}
    (h : l.Pairwise (fun p q => p.1 < q.1)) :
    (upsertSorted k f l).Pairwise (fun p q => p.1 < q.1) := by
  induction l with
  | nil => simp [upsertSorted]
  | cons q rest ih =>
      obtain ⟨k', v⟩ := q
      obtain ⟨hq, hrest⟩ := List.pairwise_cons.1 h
      simp only [upsertSorted]
      split
      · rename_i hlt
        refine List.pairwise_cons.2 ⟨fun p hp => ?_, h⟩
        rcases List.mem_cons.1 hp with rfl | hp
        · exact hlt
        · exact Std.lt_trans hlt (hq p hp)
      · split
        · rename_i hlt
          refine List.pairwise_cons.2 ⟨fun p hp => ?_, ih hrest⟩
          rcases key_of_mem_upsertSorted hp with hk | ⟨r, hr, hk⟩
          · exact hk ▸ hlt
          · exact hk ▸ hq r hr
        · exact List.pairwise_cons.2 ⟨hq, hrest⟩

theorem pairwise_mergeSorted {f : ν → ν → ν} {l m : List (κ × ν)}
    (hl : l.Pairwise (fun p q => p.1 < q.1)) (hm : m.Pairwise (fun p q => p.1 < q.1)) :
    (mergeSorted f l m).Pairwise (fun p q => p.1 < q.1) := by
  fun_induction mergeSorted f l m with
  | case1 ys => exact hm
  | case2 x xs => exact hl
  | case3 a x xs b y ys hab ih =>
      obtain ⟨ha, hxs⟩ := List.pairwise_cons.1 hl
      obtain ⟨hb, _⟩ := List.pairwise_cons.1 hm
      refine List.pairwise_cons.2 ⟨fun p hp => ?_, ih hxs hm⟩
      rcases key_of_mem_mergeSorted hp with ⟨q, hq, hk⟩ | ⟨q, hq, hk⟩
      · exact hk ▸ ha q hq
      · rcases List.mem_cons.1 hq with rfl | hq
        · exact hk ▸ hab
        · exact hk ▸ Std.lt_trans hab (hb q hq)
  | case4 a x xs b y ys hab hba ih =>
      obtain ⟨ha, _⟩ := List.pairwise_cons.1 hl
      obtain ⟨hb, hys⟩ := List.pairwise_cons.1 hm
      refine List.pairwise_cons.2 ⟨fun p hp => ?_, ih hl hys⟩
      rcases key_of_mem_mergeSorted hp with ⟨q, hq, hk⟩ | ⟨q, hq, hk⟩
      · rcases List.mem_cons.1 hq with rfl | hq
        · exact hk ▸ hba
        · exact hk ▸ Std.lt_trans hba (ha q hq)
      · exact hk ▸ hb q hq
  | case5 a x xs b y ys hab hba ih =>
      obtain ⟨ha, hxs⟩ := List.pairwise_cons.1 hl
      obtain ⟨hb, hys⟩ := List.pairwise_cons.1 hm
      have hk : a = b := Std.le_antisymm (Std.not_lt.1 hba) (Std.not_lt.1 hab)
      subst hk
      refine List.pairwise_cons.2 ⟨fun p hp => ?_, ih hxs hys⟩
      rcases key_of_mem_mergeSorted hp with ⟨q, hq, hk⟩ | ⟨q, hq, hk⟩
      · exact hk ▸ ha q hq
      · exact hk ▸ hb q hq

end Lists

variable {κ ν : Type} [LT κ]

def empty : SortedMap κ ν := ⟨[], .nil⟩

instance : EmptyCollection (SortedMap κ ν) := ⟨empty⟩

instance : Inhabited (SortedMap κ ν) := ⟨empty⟩

def size (m : SortedMap κ ν) : Nat := m.toList.length

def keys (m : SortedMap κ ν) : List κ := m.toList.map Prod.fst

def values (m : SortedMap κ ν) : List ν := m.toList.map Prod.snd

def get? [DecidableEq κ] (m : SortedMap κ ν) (k : κ) : Option ν :=
  (m.toList.find? fun p => p.1 = k).map Prod.snd

def mapValues {μ : Type} (f : ν → μ) (m : SortedMap κ ν) : SortedMap κ μ :=
  ⟨m.toList.map fun p => (p.1, f p.2), List.pairwise_map.2 m.sorted⟩

/-- Drops the keys whose value is not mapped. -/
def filterMapValues {μ : Type} (f : ν → Option μ) (m : SortedMap κ ν) : SortedMap κ μ :=
  ⟨m.toList.filterMap fun p => (f p.2).map (p.1, ·), by
    refine List.pairwise_filterMap.2 (m.sorted.imp fun {p q} h => ?_)
    intro x hx y hy
    obtain ⟨_, _, rfl⟩ := Option.map_eq_some_iff.1 hx
    obtain ⟨_, _, rfl⟩ := Option.map_eq_some_iff.1 hy
    exact h⟩

variable [LE κ] [DecidableLT κ] [Std.IsLinearOrder κ] [Std.LawfulOrderLT κ]

def upsert (k : κ) (f : Option ν → ν) (m : SortedMap κ ν) : SortedMap κ ν :=
  ⟨upsertSorted k f m.toList, pairwise_upsertSorted m.sorted⟩

def insert (k : κ) (v : ν) (m : SortedMap κ ν) : SortedMap κ ν := m.upsert k fun _ => v

/-- The last value of a key wins. -/
def ofList (l : List (κ × ν)) : SortedMap κ ν := l.foldl (fun m p => m.insert p.1 p.2) empty

def mergeWith (f : ν → ν → ν) (m n : SortedMap κ ν) : SortedMap κ ν :=
  ⟨mergeSorted f m.toList n.toList, pairwise_mergeSorted m.sorted n.sorted⟩

end SortedMap

end Seedling
