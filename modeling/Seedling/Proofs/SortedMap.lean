import Seedling.SortedMap

/-!
Sorted maps seen through `get?`. A key stands in a map at most once, so looking it up finds the
pair that is there, and each operation has one equation for what a later lookup finds.
-/

namespace Seedling.SortedMap

section Lists

variable {κ ν : Type} [LT κ] [DecidableEq κ]

/-- The value of the first pair with a key. -/
def lookup (l : List (κ × ν)) (k : κ) : Option ν := (l.find? fun p => p.1 = k).map Prod.snd

theorem get?_eq_lookup (m : SortedMap κ ν) (k : κ) : m.get? k = lookup m.toList k := rfl

omit [LT κ] in
@[simp] theorem lookup_nil (k : κ) : lookup ([] : List (κ × ν)) k = none := rfl

omit [LT κ] in
@[simp] theorem lookup_cons (p : κ × ν) (l : List (κ × ν)) (k : κ) :
    lookup (p :: l) k = if p.1 = k then some p.2 else lookup l k := by
  simp only [lookup, List.find?_cons]
  by_cases h : p.1 = k <;> simp [h]

omit [LT κ] in
theorem lookup_eq_none_iff {l : List (κ × ν)} {k : κ} :
    lookup l k = none ↔ ∀ p ∈ l, p.1 ≠ k := by
  simp [lookup, List.find?_eq_none]

variable [LE κ] [Std.LawfulOrderLT κ]

theorem lookup_eq_none_of_lt {l : List (κ × ν)} {k : κ} (h : ∀ p ∈ l, k < p.1) :
    lookup l k = none :=
  lookup_eq_none_iff.2 fun p hp => (Std.ne_of_lt (h p hp)).symm

theorem lookup_eq_some_iff {l : List (κ × ν)} (hl : l.Pairwise (fun p q => p.1 < q.1)) {k : κ}
    {v : ν} : lookup l k = some v ↔ (k, v) ∈ l := by
  induction l with
  | nil => simp
  | cons p rest ih =>
      obtain ⟨k', w⟩ := p
      obtain ⟨hp, hrest⟩ := List.pairwise_cons.1 hl
      rw [lookup_cons, List.mem_cons, ← ih hrest]
      by_cases h : k' = k
      · subst h
        have hnone : lookup rest k' = none := lookup_eq_none_of_lt hp
        simp [hnone, eq_comm]
      · simp [h, Ne.symm h]

variable [Std.IsLinearOrder κ] [DecidableLT κ]

theorem lookup_upsertSorted {l : List (κ × ν)} (hl : l.Pairwise (fun p q => p.1 < q.1)) (k k' : κ)
    (f : Option ν → ν) :
    lookup (upsertSorted k f l) k' = if k = k' then some (f (lookup l k)) else lookup l k' := by
  induction l with
  | nil => simp [upsertSorted]
  | cons p rest ih =>
      obtain ⟨key, v⟩ := p
      obtain ⟨hp, hrest⟩ := List.pairwise_cons.1 hl
      simp only [upsertSorted]
      split
      · rename_i hlt
        have hnone : lookup ((key, v) :: rest) k = none := by
          apply lookup_eq_none_of_lt
          intro q hq
          rcases List.mem_cons.1 hq with rfl | hq
          · exact hlt
          · exact Std.lt_trans hlt (hp q hq)
        rw [lookup_cons, hnone]
      · split
        · rename_i hlt
          have hne : key ≠ k := Std.ne_of_lt hlt
          rw [lookup_cons, ih hrest, lookup_cons, lookup_cons, if_neg hne]
          by_cases h : key = k'
          · subst h
            simp [Ne.symm hne]
          · simp [h]
        · rename_i h₁ h₂
          have heq : key = k := Std.le_antisymm (Std.not_lt.1 h₁) (Std.not_lt.1 h₂)
          subst heq
          simp only [lookup_cons, if_true]
          split <;> rfl

theorem lookup_mergeSorted {f : ν → ν → ν} {l m : List (κ × ν)}
    (hl : l.Pairwise (fun p q => p.1 < q.1)) (hm : m.Pairwise (fun p q => p.1 < q.1)) (k : κ) :
    lookup (mergeSorted f l m) k = Option.merge f (lookup l k) (lookup m k) := by
  fun_induction mergeSorted f l m with
  | case1 ys => simp
  | case2 x xs => simp
  | case3 a x xs b y ys hab ih =>
      obtain ⟨_, hxs⟩ := List.pairwise_cons.1 hl
      obtain ⟨hb, _⟩ := List.pairwise_cons.1 hm
      rw [lookup_cons, ih hxs hm, lookup_cons (a, x) xs]
      by_cases h : a = k
      · subst h
        have hnone : lookup ((b, y) :: ys) a = none := by
          apply lookup_eq_none_of_lt
          intro q hq
          rcases List.mem_cons.1 hq with rfl | hq
          · exact hab
          · exact Std.lt_trans hab (hb q hq)
        rw [hnone]
        simp
      · simp [h]
  | case4 a x xs b y ys hab hba ih =>
      obtain ⟨ha, _⟩ := List.pairwise_cons.1 hl
      obtain ⟨_, hys⟩ := List.pairwise_cons.1 hm
      rw [lookup_cons, ih hl hys, lookup_cons (b, y)]
      by_cases h : b = k
      · subst h
        have hnone : lookup ((a, x) :: xs) b = none := by
          apply lookup_eq_none_of_lt
          intro q hq
          rcases List.mem_cons.1 hq with rfl | hq
          · exact hba
          · exact Std.lt_trans hba (ha q hq)
        simp [hnone]
      · simp [h]
  | case5 a x xs b y ys hab hba ih =>
      obtain ⟨_, hxs⟩ := List.pairwise_cons.1 hl
      obtain ⟨_, hys⟩ := List.pairwise_cons.1 hm
      have heq : a = b := Std.le_antisymm (Std.not_lt.1 hba) (Std.not_lt.1 hab)
      subst heq
      rw [lookup_cons, ih hxs hys, lookup_cons, lookup_cons]
      by_cases h : a = k <;> simp [h]

end Lists

section View

variable {κ ν : Type} [LT κ] [DecidableEq κ]

@[simp] theorem get?_empty (k : κ) : (empty : SortedMap κ ν).get? k = none := rfl

@[simp] theorem get?_mapValues {μ : Type} (f : ν → μ) (m : SortedMap κ ν) (k : κ) :
    (m.mapValues f).get? k = (m.get? k).map f := by
  obtain ⟨l, hl⟩ := m
  simp only [get?_eq_lookup, mapValues]
  clear hl
  induction l with
  | nil => rfl
  | cons p rest ih =>
      rw [List.map_cons, lookup_cons, lookup_cons, ih]
      split <;> rfl

variable [LE κ] [Std.LawfulOrderLT κ]

theorem get?_eq_some_iff {m : SortedMap κ ν} {k : κ} {v : ν} :
    m.get? k = some v ↔ (k, v) ∈ m.toList :=
  lookup_eq_some_iff m.sorted

theorem get?_filterMapValues {μ : Type} (f : ν → Option μ) (m : SortedMap κ ν) (k : κ) :
    (m.filterMapValues f).get? k = (m.get? k).bind f := by
  ext v
  rw [get?_eq_some_iff, Option.bind_eq_some_iff]
  simp only [filterMapValues, List.mem_filterMap, Option.map_eq_some_iff, get?_eq_some_iff]
  constructor
  · rintro ⟨⟨k', w⟩, hmem, u, hu, heq⟩
    obtain ⟨rfl, rfl⟩ := Prod.mk.inj heq
    exact ⟨w, hmem, hu⟩
  · rintro ⟨w, hmem, hv⟩
    exact ⟨(k, w), hmem, v, hv, rfl⟩

omit [DecidableEq κ] in
theorem nodup_toList (m : SortedMap κ ν) : m.toList.Nodup := by
  refine m.sorted.imp fun {p q} hlt heq => ?_
  rw [heq] at hlt
  exact Std.lt_irrefl hlt

/-- Maps that answer every lookup alike are written down alike. -/
theorem toList_eq_iff {m n : SortedMap κ ν} : m.toList = n.toList ↔ ∀ k, m.get? k = n.get? k := by
  constructor
  · intro h k
    rw [get?_eq_lookup, get?_eq_lookup, h]
  · intro h
    refine List.Perm.eq_of_pairwise (fun p q _ _ hpq hqp => ?_) m.sorted n.sorted ?_
    · exact absurd (Std.le_of_lt hqp) (Std.not_le_of_gt hpq)
    · rw [List.perm_ext_iff_of_nodup m.nodup_toList n.nodup_toList]
      intro p
      rw [← get?_eq_some_iff, h, get?_eq_some_iff]

variable [Std.IsLinearOrder κ] [DecidableLT κ]

theorem get?_upsert (m : SortedMap κ ν) (k k' : κ) (f : Option ν → ν) :
    (m.upsert k f).get? k' = if k = k' then some (f (m.get? k)) else m.get? k' :=
  lookup_upsertSorted m.sorted k k' f

theorem get?_insert (m : SortedMap κ ν) (k k' : κ) (v : ν) :
    (m.insert k v).get? k' = if k = k' then some v else m.get? k' :=
  get?_upsert m k k' _

theorem get?_mergeWith (f : ν → ν → ν) (m n : SortedMap κ ν) (k : κ) :
    (m.mergeWith f n).get? k = Option.merge f (m.get? k) (n.get? k) :=
  lookup_mergeSorted m.sorted n.sorted k

theorem get?_foldl_insert (l : List (κ × ν)) (m : SortedMap κ ν) (k : κ) :
    (l.foldl (fun m p => m.insert p.1 p.2) m).get? k = (lookup l.reverse k).or (m.get? k) := by
  induction l generalizing m with
  | nil => simp
  | cons p rest ih =>
      have hsplit : lookup (rest.reverse ++ [p]) k =
          (lookup rest.reverse k).or (if p.1 = k then some p.2 else none) := by
        simp only [lookup, List.find?_append, Option.map_or]
        by_cases h : p.1 = k <;> simp [h]
      rw [List.foldl_cons, ih, get?_insert, List.reverse_cons, hsplit, Option.or_assoc]
      congr 1
      split <;> simp

theorem get?_ofList {l : List (κ × ν)} (hl : l.Pairwise (fun p q => p.1 < q.1)) (k : κ) :
    (ofList l).get? k = lookup l k := by
  rw [ofList, get?_foldl_insert, get?_empty, Option.or_none]
  ext v
  rw [lookup_eq_some_iff hl]
  constructor
  · intro h
    obtain ⟨p, hp, rfl⟩ := Option.map_eq_some_iff.1 h
    have hkey : p.1 = k := by simpa using List.find?_some hp
    subst hkey
    exact List.mem_reverse.1 (List.mem_of_find?_eq_some hp)
  · intro h
    cases hlook : lookup l.reverse k with
    | none => exact absurd rfl (lookup_eq_none_iff.1 hlook (k, v) (List.mem_reverse.2 h))
    | some w =>
        obtain ⟨p, hp, rfl⟩ := Option.map_eq_some_iff.1 hlook
        have hkey : p.1 = k := by simpa using List.find?_some hp
        subst hkey
        have hmem := (lookup_eq_some_iff hl).2 (List.mem_reverse.1 (List.mem_of_find?_eq_some hp))
        rw [(lookup_eq_some_iff hl).2 h] at hmem
        exact hmem.symm

theorem ofList_toList (m : SortedMap κ ν) : ofList m.toList = m := by
  have hlist : (ofList m.toList).toList = m.toList := toList_eq_iff.2 (get?_ofList m.sorted)
  cases hm : ofList m.toList
  cases m
  rw [hm] at hlist
  cases hlist
  rfl

end View

end Seedling.SortedMap
