import Seedling.Automaton.Minimize
import Seedling.Proofs.Automaton.Dfa
import Mathlib.Data.Finset.Card

/-!
Merging states does not change the language. Numbering the states by what they show makes a
partition; refining one either splits a block or leaves a partition whose blocks agree under every
byte, and the quotient of such a partition follows the automaton step by step.
-/

namespace Seedling.Automaton.Dfa

/-! ### Numbering by first occurrence -/

section Numbering

variable {α : Type} [BEq α] [Hashable α]

/-- The numbers given so far are those below the size, each to one element. -/
structure Numbered (seen : Std.HashMap α Nat) : Prop where
  injective : ∀ {a b : α} {n : Nat}, seen[a]? = some n → seen[b]? = some n → a = b
  exists_iff : ∀ {n : Nat}, (∃ a : α, seen[a]? = some n) ↔ n < seen.size

variable [LawfulBEq α]

theorem numbered_empty : Numbered (∅ : Std.HashMap α Nat) where
  injective := by simp
  exists_iff := by simp

theorem Numbered.insert {seen : Std.HashMap α Nat} (h : Numbered seen) {a : α}
    (ha : seen[a]? = none) : Numbered (seen.insert a seen.size) where
  injective := by
    intro x y n hx hy
    have hfresh : ∀ b : α, seen[b]? ≠ some seen.size := by
      intro b hb
      exact absurd (h.exists_iff.1 ⟨b, hb⟩) (Nat.lt_irrefl _)
    rw [Std.HashMap.getElem?_insert] at hx hy
    split at hx <;> split at hy
    · rename_i hax hay
      exact (eq_of_beq hax).symm.trans (eq_of_beq hay)
    · cases hx
      exact absurd hy (hfresh y)
    · cases hy
      exact absurd hx (hfresh x)
    · exact h.injective hx hy
  exists_iff := by
    intro n
    have hnot : a ∉ seen := by
      rw [Std.HashMap.mem_iff_isSome_getElem?, ha]
      exact Bool.false_ne_true
    rw [Std.HashMap.size_insert, if_neg hnot]
    constructor
    · rintro ⟨b, hb⟩
      rw [Std.HashMap.getElem?_insert] at hb
      split at hb
      · cases hb
        exact Nat.lt_succ_self _
      · exact Nat.lt_succ_of_lt (h.exists_iff.1 ⟨b, hb⟩)
    · intro hn
      rcases Nat.lt_succ_iff_lt_or_eq.1 hn with hlt | rfl
      · obtain ⟨b, hb⟩ := h.exists_iff.2 hlt
        refine ⟨b, ?_⟩
        have hab : (a == b) = false := by
          refine beq_false_of_ne fun hab => ?_
          rw [hab, hb] at ha
          contradiction
        rw [Std.HashMap.getElem?_insert, hab]
        exact hb
      · exact ⟨a, Std.HashMap.getElem?_insert_self⟩

/-- The list is numbered by a table that extends the one before by the elements of the list. -/
theorem numberFrom_spec {seen : Std.HashMap α Nat} (h : Numbered seen) (l : List α) :
    ∃ table : Std.HashMap α Nat, Numbered table ∧
      (∀ (a : α) (n : Nat), seen[a]? = some n → table[a]? = some n) ∧
      (∀ a, a ∈ table ↔ a ∈ seen ∨ a ∈ l) ∧
      (numberFrom seen l).map some = l.map fun a => table[a]? := by
  induction l generalizing seen with
  | nil => exact ⟨seen, h, fun _ _ hn => hn, by simp, rfl⟩
  | cons a l ih =>
      rw [numberFrom]
      split
      · rename_i n hn
        obtain ⟨table, htable, hkeep, hmem, hmap⟩ := ih h
        have ha : a ∈ seen := Std.HashMap.mem_iff_isSome_getElem?.2 (by rw [hn]; rfl)
        refine ⟨table, htable, hkeep, fun x => ?_, ?_⟩
        · rw [hmem, List.mem_cons]
          constructor
          · rintro (hx | hx)
            · exact .inl hx
            · exact .inr (.inr hx)
          · rintro (hx | rfl | hx)
            · exact .inl hx
            · exact .inl ha
            · exact .inr hx
        · rw [List.map_cons, List.map_cons, hmap, hkeep a n hn]
      · rename_i hnone
        obtain ⟨table, htable, hkeep, hmem, hmap⟩ := ih (h.insert hnone)
        have hself : (seen.insert a seen.size)[a]? = some seen.size :=
          Std.HashMap.getElem?_insert_self
        refine ⟨table, htable, fun b n hb => hkeep b n ?_, fun x => ?_, ?_⟩
        · have hab : (a == b) = false := by
            refine beq_false_of_ne fun hab => ?_
            rw [hab, hb] at hnone
            contradiction
          rw [Std.HashMap.getElem?_insert, hab]
          exact hb
        · rw [hmem, Std.HashMap.mem_insert, List.mem_cons, beq_iff_eq, eq_comm, or_assoc,
            or_left_comm]
        · rw [List.map_cons, List.map_cons, hmap, hkeep a _ hself]

/-- Equal elements, and only they, get equal numbers, and the numbers have no gap. -/
theorem numberFrom_empty (l : List α) :
    ∃ (number : α → Nat) (count : Nat), numberFrom ∅ l = l.map number ∧
      (∀ a ∈ l, ∀ b ∈ l, number a = number b → a = b) ∧
      ∀ n, n < count ↔ ∃ a ∈ l, number a = n := by
  obtain ⟨table, htable, -, hmem, hmap⟩ := numberFrom_spec numbered_empty l
  have hmem' : ∀ a, a ∈ table ↔ a ∈ l := by simpa using hmem
  have hget : ∀ a ∈ l, table[a]? = some ((table[a]?).getD 0) := by
    intro a ha
    have hsome := Std.HashMap.mem_iff_isSome_getElem?.1 ((hmem' a).2 ha)
    obtain ⟨n, hn⟩ := Option.isSome_iff_exists.1 hsome
    rw [hn, Option.getD_some]
  refine ⟨fun a => (table[a]?).getD 0, table.size, ?_, fun a ha b hb heq => ?_, fun n => ?_⟩
  · refine List.map_injective_iff.2 (Option.some_injective Nat) ?_
    rw [hmap, List.map_map]
    exact List.map_congr_left hget
  · refine htable.injective (hget a ha) ?_
    rw [hget b hb]
    exact congrArg some heq.symm
  · rw [← htable.exists_iff]
    constructor
    · rintro ⟨a, ha⟩
      have hin : a ∈ table := Std.HashMap.mem_iff_isSome_getElem?.2 (by rw [ha]; rfl)
      exact ⟨a, (hmem' a).1 hin, by simp [ha]⟩
    · rintro ⟨a, ha, rfl⟩
      exact ⟨a, hget a ha⟩

end Numbering

/-! ### Partitions -/

/-- The blocks of a partition of `n` states are numbered without gaps. -/
structure IsPartition (n : Nat) (blocks : Partition) : Prop where
  size_eq : blocks.size = n
  exists_iff : ∀ {b}, (∃ s, s < n ∧ blockOf blocks s = b) ↔ b < blockCount blocks

theorem lt_blockCount {blocks : Partition} {b : Nat} (h : b ∈ blocks) : b < blockCount blocks := by
  have hfold : ∀ (l : List Nat) (n : Nat), n ≤ l.foldl (fun n b => max n (b + 1)) n ∧
      ∀ b ∈ l, b < l.foldl (fun n b => max n (b + 1)) n := by
    intro l
    induction l with
    | nil => simp
    | cons a l ih =>
        intro n
        obtain ⟨hle, hlt⟩ := ih (max n (a + 1))
        rw [List.foldl_cons]
        refine ⟨by omega, fun b hb => ?_⟩
        rcases List.mem_cons.1 hb with rfl | hb
        · omega
        · exact hlt b hb
  rw [blockCount, ← Array.foldl_toList]
  exact (hfold blocks.toList 0).2 b (by simpa using h)

theorem blockCount_le {blocks : Partition} {k : Nat} (h : ∀ b ∈ blocks, b < k) :
    blockCount blocks ≤ k := by
  have hfold : ∀ (l : List Nat) (n : Nat), n ≤ k → (∀ b ∈ l, b < k) →
      l.foldl (fun n b => max n (b + 1)) n ≤ k := by
    intro l
    induction l with
    | nil => exact fun n hn _ => hn
    | cons a l ih =>
        intro n hn hl
        have ha : a < k := hl a List.mem_cons_self
        exact ih _ (Nat.max_le.2 ⟨hn, ha⟩) fun b hb => hl b (List.mem_cons_of_mem a hb)
  rw [blockCount, ← Array.foldl_toList]
  exact hfold blocks.toList 0 (Nat.zero_le k) fun b hb => h b (by simpa using hb)

section Groups

variable {α : Type} [BEq α] [Hashable α] [LawfulBEq α]

theorem group_spec (n : Nat) (key : Nat → α) :
    let blocks : Partition := (numberFrom ∅ ((List.range n).map key)).toArray
    IsPartition n blocks ∧
      ∀ {s t}, s < n → t < n → (blockOf blocks s = blockOf blocks t ↔ key s = key t) := by
  obtain ⟨number, count, heq, hinj, hcount⟩ := numberFrom_empty ((List.range n).map key)
  have hkey : ∀ {s}, s < n → key s ∈ (List.range n).map key := fun hs =>
    List.mem_map_of_mem (List.mem_range.2 hs)
  rw [heq, List.map_map]
  intro blocks
  have hblock : ∀ {s}, s < n → blockOf blocks s = number (key s) := by
    intro s hs
    simp [blockOf, blocks, List.getElem?_range hs]
  have hblocks : blockCount blocks = count := by
    have hmem : ∀ b, b ∈ blocks ↔ b < count := by
      intro b
      simp [blocks, hcount]
    refine Nat.le_antisymm (blockCount_le fun b hb => (hmem b).1 hb) ?_
    rcases Nat.eq_zero_or_pos count with h0 | hpos
    · omega
    · have hlast := lt_blockCount ((hmem (count - 1)).2 (by omega))
      omega
  refine ⟨⟨by simp [blocks], fun {b} => ?_⟩, fun {s t} hs ht => ?_⟩
  · rw [hblocks, hcount]
    constructor
    · rintro ⟨s, hs, rfl⟩
      exact ⟨key s, hkey hs, (hblock hs).symm⟩
    · rintro ⟨a, ha, rfl⟩
      obtain ⟨s, hs, rfl⟩ := List.mem_map.1 ha
      have hs' : s < n := List.mem_range.1 hs
      exact ⟨s, hs', hblock hs'⟩
  · rw [hblock hs, hblock ht]
    exact ⟨hinj _ (hkey hs) _ (hkey ht), fun h => by rw [h]⟩

end Groups

/-! ### Counting blocks -/

section Counting

variable {n : Nat} {p q : Partition}

/-- The states that share a block of `p` share one of `q`. -/
def Refines (n : Nat) (p q : Partition) : Prop :=
  ∀ s t, s < n → t < n → blockOf p s = blockOf p t → blockOf q s = blockOf q t

theorem IsPartition.image_eq (hp : IsPartition n p) :
    (Finset.range n).image (blockOf p) = Finset.range (blockCount p) := by
  ext b
  rw [Finset.mem_image, Finset.mem_range, ← hp.exists_iff]
  simp only [Finset.mem_range]

theorem IsPartition.blockCount_le (hp : IsPartition n p) : blockCount p ≤ n := by
  have hcard : ((Finset.range n).image (blockOf p)).card ≤ (Finset.range n).card :=
    Finset.card_image_le
  rwa [hp.image_eq, Finset.card_range, Finset.card_range] at hcard

theorem IsPartition.eq_of_blockOf_eq (hp : IsPartition n p) (hn : blockCount p = n) {s t : Nat}
    (hs : s < n) (ht : t < n) (h : blockOf p s = blockOf p t) : s = t := by
  have hinj : Set.InjOn (blockOf p) (Finset.range n) := by
    apply Finset.injOn_of_card_image_eq
    rw [hp.image_eq, Finset.card_range, Finset.card_range, hn]
  exact hinj (by simpa using hs) (by simpa using ht) h

/-- The blocks of the coarser partition are a function of those of the finer one. -/
theorem IsPartition.exists_factor (hp : IsPartition n p) (hq : IsPartition n q)
    (h : Refines n p q) :
    ∃ f : Nat → Nat, (∀ s, s < n → f (blockOf p s) = blockOf q s) ∧
      (Finset.range (blockCount p)).image f = Finset.range (blockCount q) := by
  have hrep : ∀ b, ∃ s, b < blockCount p → s < n ∧ blockOf p s = b := by
    intro b
    by_cases hb : b < blockCount p
    · obtain ⟨s, hs⟩ := hp.exists_iff.2 hb
      exact ⟨s, fun _ => hs⟩
    · exact ⟨0, fun hlt => absurd hlt hb⟩
  choose rep hrep using hrep
  have hfactor : ∀ s, s < n → blockOf q (rep (blockOf p s)) = blockOf q s := by
    intro s hs
    obtain ⟨hlt, heq⟩ := hrep (blockOf p s) (hp.exists_iff.1 ⟨s, hs, rfl⟩)
    exact h _ _ hlt hs heq
  refine ⟨fun b => blockOf q (rep b), hfactor, ?_⟩
  rw [← hp.image_eq, ← hq.image_eq, Finset.image_image]
  exact Finset.image_congr fun s hs => hfactor s (by simpa using hs)

theorem IsPartition.blockCount_mono (hp : IsPartition n p) (hq : IsPartition n q)
    (h : Refines n p q) : blockCount q ≤ blockCount p := by
  obtain ⟨f, -, himage⟩ := hp.exists_factor hq h
  have hcard : ((Finset.range (blockCount p)).image f).card ≤ (Finset.range (blockCount p)).card :=
    Finset.card_image_le
  rwa [himage, Finset.card_range, Finset.card_range] at hcard

/-- A refinement with no block more is the same partition. -/
theorem IsPartition.refines_symm (hp : IsPartition n p) (hq : IsPartition n q)
    (h : Refines n p q) (hcount : blockCount p = blockCount q) : Refines n q p := by
  obtain ⟨f, hf, himage⟩ := hp.exists_factor hq h
  have hinj : Set.InjOn f (Finset.range (blockCount p)) := by
    apply Finset.injOn_of_card_image_eq
    rw [himage, Finset.card_range, Finset.card_range, hcount]
  have hmem : ∀ s, s < n → blockOf p s ∈ (Finset.range (blockCount p) : Set Nat) := by
    intro s hs
    simpa using hp.exists_iff.1 ⟨s, hs, rfl⟩
  intro s t hs ht heq
  apply hinj (hmem s hs) (hmem t ht)
  rw [hf s hs, hf t ht, heq]

end Counting

/-! ### Refinement -/

variable {d : Dfa} {blocks : Partition}

/-- The states of a block are of one kind. -/
def SameKind (d : Dfa) (blocks : Partition) : Prop :=
  ∀ s t, s < d.size → t < d.size → blockOf blocks s = blockOf blocks t → d.kind s = d.kind t

/-- Under every byte the states of a block lead to one block, or none of them leads anywhere. -/
def Stable (d : Dfa) (blocks : Partition) : Prop :=
  ∀ s t, s < d.size → t < d.size → blockOf blocks s = blockOf blocks t →
    ∀ b, (d.next? s b).map (blockOf blocks) = (d.next? t b).map (blockOf blocks)

theorem initialPartition_spec (d : Dfa) :
    IsPartition d.size d.initialPartition ∧ SameKind d d.initialPartition := by
  obtain ⟨hpart, hkey⟩ := group_spec d.size d.kind
  exact ⟨hpart, fun s t hs ht => (hkey hs ht).1⟩

theorem refine_isPartition (d : Dfa) (blocks : Partition) :
    IsPartition d.size (d.refine blocks) :=
  (group_spec d.size (d.signature blocks)).1

theorem blockOf_refine {s t : Nat} (hs : s < d.size) (ht : t < d.size) :
    blockOf (d.refine blocks) s = blockOf (d.refine blocks) t ↔
      blockOf blocks s = blockOf blocks t ∧
        ∀ b, (d.next? s b).map (blockOf blocks) = (d.next? t b).map (blockOf blocks) := by
  refine ((group_spec d.size (d.signature blocks)).2 hs ht).trans ?_
  rw [signature, signature, Prod.mk.injEq, SortedMap.toList_eq_iff]
  simp only [SortedMap.get?_mapValues, next?]

theorem refines_refine (d : Dfa) (blocks : Partition) :
    Refines d.size (d.refine blocks) blocks :=
  fun _ _ hs ht h => ((blockOf_refine hs ht).1 h).1

theorem SameKind.refine (h : SameKind d blocks) : SameKind d (d.refine blocks) :=
  fun s t hs ht heq => h s t hs ht (refines_refine d blocks s t hs ht heq)

/-- A round that adds no block ends at a partition that one more round would not change. -/
theorem Valid.stable_refine (hd : d.Valid) (hpart : IsPartition d.size blocks)
    (hcount : blockCount (d.refine blocks) = blockCount blocks) : Stable d (d.refine blocks) := by
  have hback : Refines d.size blocks (d.refine blocks) :=
    (refine_isPartition d blocks).refines_symm hpart (refines_refine d blocks) hcount
  intro s t hs ht heq b
  have hstep := ((blockOf_refine hs ht).1 heq).2 b
  cases hu : d.next? s b with
  | none =>
      rw [hu, Option.map_none, eq_comm, Option.map_eq_none_iff] at hstep
      rw [hstep]
  | some u =>
      rw [hu, Option.map_some, eq_comm, Option.map_eq_some_iff] at hstep
      obtain ⟨v, hv, huv⟩ := hstep
      rw [hv, Option.map_some, Option.map_some]
      exact congrArg some (hback u v (hd.next_lt hu) (hd.next_lt hv) huv.symm)

theorem stable_of_alone (hpart : IsPartition d.size blocks) (hn : blockCount blocks = d.size) :
    Stable d blocks := by
  intro s t hs ht heq b
  rw [hpart.eq_of_blockOf_eq hn hs ht heq]

/-- There are rounds enough: each that is not the last adds a block. -/
theorem Valid.refineAll_spec (hd : d.Valid) (rounds : Nat) (blocks : Partition)
    (hpart : IsPartition d.size blocks) (hkind : SameKind d blocks)
    (hrounds : d.size < rounds + blockCount blocks) :
    IsPartition d.size (d.refineAll rounds blocks) ∧ SameKind d (d.refineAll rounds blocks) ∧
      Stable d (d.refineAll rounds blocks) := by
  have hle := hpart.blockCount_le
  induction rounds generalizing blocks with
  | zero => omega
  | succ rounds ih =>
      have hpart' := refine_isPartition d blocks
      have hmono := hpart'.blockCount_mono hpart (refines_refine d blocks)
      rw [refineAll]
      -- The rounds end when there are as many blocks as states, or when none was added.
      split
      · dsimp only
        split
        · rename_i hcount
          exact ⟨hpart', hkind.refine, hd.stable_refine hpart hcount⟩
        · rename_i hcount
          exact ih _ hpart' hkind.refine (by omega) hpart'.blockCount_le
      · exact ⟨hpart, hkind, stable_of_alone hpart (by omega)⟩

theorem Valid.coarsest_spec (hd : d.Valid) :
    IsPartition d.size d.coarsest ∧ SameKind d d.coarsest ∧ Stable d d.coarsest := by
  obtain ⟨hpart, hkind⟩ := initialPartition_spec d
  have hpos : 0 < blockCount d.initialPartition :=
    Nat.zero_lt_of_lt (hpart.exists_iff.1 ⟨0, hd.size_pos, rfl⟩)
  exact hd.refineAll_spec d.size _ hpart hkind (by omega)

theorem mem_final_of_kind_eq {s t : Nat} (h : d.kind s = d.kind t) (ht : t ∈ d.final) :
    s ∈ d.final := by
  rw [← isFinal_iff] at ht ⊢
  simp only [kind, ht] at h
  grind

/-! ### The quotient -/

/-- The number of a state's block once the start state's block is first. -/
def number (blocks : Partition) (s : Nat) : Nat := renumber (blockOf blocks 0) (blockOf blocks s)

@[simp] theorem renumber_renumber (start b : Nat) : renumber start (renumber start b) = b := by
  grind [renumber]

theorem renumber_injective (start : Nat) : Function.Injective (renumber start) :=
  Function.LeftInverse.injective (renumber_renumber start)

@[simp] theorem number_zero (blocks : Partition) : number blocks 0 = 0 := by
  rw [number, renumber, if_pos rfl]

theorem number_eq_iff {s t : Nat} :
    number blocks s = number blocks t ↔ blockOf blocks s = blockOf blocks t :=
  (renumber_injective _).eq_iff

theorem renumber_lt {start b count : Nat} (hstart : start < count) (hb : b < count) :
    renumber start b < count := by
  grind [renumber]

section Quotient

variable (hd : d.Valid) (hpart : IsPartition d.size blocks)

include hd hpart

theorem number_lt {s : Nat} (hs : s < d.size) : number blocks s < blockCount blocks :=
  renumber_lt (hpart.exists_iff.1 ⟨0, hd.size_pos, rfl⟩) (hpart.exists_iff.1 ⟨s, hs, rfl⟩)

theorem exists_number_eq {b : Nat} (hb : b < blockCount blocks) :
    ∃ s, s < d.size ∧ number blocks s = b := by
  have hstart : blockOf blocks 0 < blockCount blocks := hpart.exists_iff.1 ⟨0, hd.size_pos, rfl⟩
  obtain ⟨s, hs, heq⟩ := hpart.exists_iff.2 (renumber_lt hstart hb)
  refine ⟨s, hs, ?_⟩
  rw [number, heq, renumber_renumber]

theorem exists_members :
    ∃ members : List Nat, members.length = blockCount blocks ∧
      (∀ b s, members[b]? = some s → s < d.size ∧ number blocks s = b) ∧
      (d.quotient blocks).names = (members.map d.name).toArray ∧
      (d.quotient blocks).rows =
        (members.map fun s => (d.row s).mapValues (number blocks)).toArray := by
  let first (b : Nat) : Option Nat := (List.range d.size).find? fun s => number blocks s = b
  have hfirst : ∀ b, b < blockCount blocks →
      ∃ s, first b = some s ∧ s < d.size ∧ number blocks s = b := by
    intro b hb
    obtain ⟨s, hs, heq⟩ := exists_number_eq hd hpart hb
    have hsome : (first b).isSome := by
      rw [List.find?_isSome]
      exact ⟨s, List.mem_range.2 hs, by simpa using heq⟩
    obtain ⟨t, ht⟩ := Option.isSome_iff_exists.1 hsome
    exact ⟨t, ht, List.mem_range.1 (List.mem_of_find?_eq_some ht),
      by simpa using List.find?_some ht⟩
  -- Every block has a first state, so none is left out and the numbers are the indices.
  have hmap : (List.range (blockCount blocks)).filterMap first =
      (List.range (blockCount blocks)).map fun b => (first b).getD 0 := by
    rw [← List.filterMap_eq_map]
    refine List.filterMap_congr fun b hb => ?_
    obtain ⟨s, hs, -⟩ := hfirst b (List.mem_range.1 hb)
    rw [hs, Function.comp_apply, hs, Option.getD_some]
  refine ⟨(List.range (blockCount blocks)).filterMap first, ?_, fun b s hs => ?_, rfl, rfl⟩
  · rw [hmap, List.length_map, List.length_range]
  · rw [hmap, List.getElem?_map, Option.map_eq_some_iff] at hs
    obtain ⟨b', hb', rfl⟩ := hs
    obtain ⟨hlt, rfl⟩ := List.getElem?_eq_some_iff.1 hb'
    rw [List.length_range] at hlt
    obtain ⟨s, hs, hlt', heq⟩ := hfirst b hlt
    rw [List.getElem_range, hs]
    exact ⟨hlt', heq⟩

theorem quotient_size : (d.quotient blocks).size = blockCount blocks := by
  obtain ⟨members, hlength, -, hnames, -⟩ := exists_members hd hpart
  rw [size, hnames, List.size_toArray, List.length_map, hlength]

/-- A block leads where its first state leads. -/
theorem quotient_next?_eq {b : Nat} (hb : b < blockCount blocks) :
    ∃ s, s < d.size ∧ number blocks s = b ∧
      ∀ c, (d.quotient blocks).next? b c = (d.next? s c).map (number blocks) := by
  obtain ⟨members, hlength, hmembers, -, hrows⟩ := exists_members hd hpart
  have hget := List.getElem?_eq_getElem (hlength.symm ▸ hb : b < members.length)
  obtain ⟨hs, hnumber⟩ := hmembers b _ hget
  refine ⟨members[b], hs, hnumber, fun c => ?_⟩
  rw [next?, row, hrows, List.getElem?_toArray, List.getElem?_map, hget, Option.map_some,
    Option.getD_some, SortedMap.get?_mapValues]
  rfl

theorem quotient_next? (hstable : Stable d blocks) {s : Nat} (hs : s < d.size) (c : UInt8) :
    (d.quotient blocks).next? (number blocks s) c = (d.next? s c).map (number blocks) := by
  obtain ⟨t, ht, hts, hnext⟩ := quotient_next?_eq hd hpart (number_lt hd hpart hs)
  have hblocks := hstable t s ht hs (number_eq_iff.1 hts) c
  have hcomp : ∀ o : Option Nat,
      o.map (number blocks) = (o.map (blockOf blocks)).map (renumber (blockOf blocks 0)) := by
    intro o
    rw [Option.map_map]
    rfl
  rw [hnext, hcomp, hblocks, ← hcomp]

omit hd hpart in
theorem mem_quotient_final {b : Nat} :
    b ∈ (d.quotient blocks).final ↔ ∃ s ∈ d.final, number blocks s = b := by
  rw [quotient, SortedSet.mem_ofList, List.mem_map]
  rfl

omit hpart in
theorem number_mem_final (hkind : SameKind d blocks) {s : Nat} (hs : s < d.size) :
    number blocks s ∈ (d.quotient blocks).final ↔ s ∈ d.final := by
  rw [mem_quotient_final]
  constructor
  · rintro ⟨t, ht, hts⟩
    exact mem_final_of_kind_eq (hkind s t hs (hd.final_lt ht) (number_eq_iff.1 hts.symm)) ht
  · intro hfinal
    exact ⟨s, hfinal, rfl⟩

theorem quotient_valid : (d.quotient blocks).Valid where
  rows_size := by
    obtain ⟨members, -, -, hnames, hrows⟩ := exists_members hd hpart
    rw [size, hnames, hrows, List.size_toArray, List.size_toArray, List.length_map,
      List.length_map]
  size_pos := by
    rw [quotient_size hd hpart]
    exact Nat.zero_lt_of_lt (number_lt hd hpart hd.size_pos)
  next_lt := by
    intro b c t h
    have hb : b < blockCount blocks := by
      obtain ⟨members, hlength, -, -, hrows⟩ := exists_members hd hpart
      have hlt := lt_of_next? h
      rwa [hrows, List.size_toArray, List.length_map, hlength] at hlt
    obtain ⟨s, -, -, hnext⟩ := quotient_next?_eq hd hpart hb
    rw [hnext] at h
    obtain ⟨u, hu, rfl⟩ := Option.map_eq_some_iff.1 h
    rw [quotient_size hd hpart]
    exact number_lt hd hpart (hd.next_lt hu)
  final_lt := by
    intro b hb
    obtain ⟨s, hs, rfl⟩ := mem_quotient_final.1 hb
    rw [quotient_size hd hpart]
    exact number_lt hd hpart (hd.final_lt hs)
  unmergeable_lt := by
    intro b hb
    rw [quotient, SortedSet.mem_ofList, List.mem_map] at hb
    obtain ⟨s, hs, rfl⟩ := hb
    rw [quotient_size hd hpart]
    exact number_lt hd hpart (hd.unmergeable_lt hs)

theorem quotient_run (hstable : Stable d blocks) {s : Nat} (hs : s < d.size) (w : List UInt8) :
    (d.quotient blocks).run (number blocks s) w = (d.run s w).map (number blocks) := by
  induction w generalizing s with
  | nil => rfl
  | cons c w ih =>
      rw [run_cons, run_cons, quotient_next? hd hpart hstable hs]
      cases hu : d.next? s c with
      | none => rfl
      | some u => exact ih (hd.next_lt hu)

theorem quotient_recognize (hkind : SameKind d blocks) (hstable : Stable d blocks)
    (w : List UInt8) : (d.quotient blocks).recognize w = d.recognize w := by
  have hrun := quotient_run hd hpart hstable hd.size_pos w
  rw [number_zero] at hrun
  rw [Bool.eq_iff_iff, recognize_iff, recognize_iff, hrun]
  constructor
  · rintro ⟨b, hb, hfinal⟩
    obtain ⟨s, hs, rfl⟩ := Option.map_eq_some_iff.1 hb
    exact ⟨s, hs, (number_mem_final hd hkind (hd.run_lt hd.size_pos hs)).1 hfinal⟩
  · rintro ⟨s, hs, hfinal⟩
    refine ⟨number blocks s, by rw [hs]; rfl, ?_⟩
    exact (number_mem_final hd hkind (hd.run_lt hd.size_pos hs)).2 hfinal

end Quotient

/-- Either nothing was merged, or the automaton is the quotient by the coarsest partition. -/
theorem minimized_eq (d : Dfa) : d.minimized = d ∨ d.minimized = d.quotient d.coarsest := by
  rw [minimized, minimize?]
  split
  · exact .inl rfl
  · dsimp only
    split
    · exact .inl rfl
    · exact .inr rfl

theorem minimized_valid (hd : d.Valid) : d.minimized.Valid := by
  rcases minimized_eq d with h | h
  · rwa [h]
  · rw [h]
    exact quotient_valid hd hd.coarsest_spec.1

theorem minimized_recognize (hd : d.Valid) (w : List UInt8) :
    d.minimized.recognize w = d.recognize w := by
  obtain ⟨hpart, hkind, hstable⟩ := hd.coarsest_spec
  rcases minimized_eq d with h | h
  · rw [h]
  · rw [h, quotient_recognize hd hpart hkind hstable]

end Seedling.Automaton.Dfa
