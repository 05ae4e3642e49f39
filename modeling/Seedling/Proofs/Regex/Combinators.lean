import Mathlib.Algebra.BigOperators.Group.List.Basic
import Seedling.Proofs.Regex.Language

/-!
The languages of the derived operators. Merging neighbouring literals, splitting a set of bytes
into runs and writing out counts change how an expression looks, but not which words it stands
for: a sequence is a product, alternatives are a sum, and a count is a union of powers.
-/

namespace Seedling.Regex

@[simp] theorem language_empty : empty.language = 1 := rfl

@[simp] theorem language_nothing : nothing.language = 0 := by
  ext w
  simp only [Language.notMem_zero, iff_false]
  rintro ⟨b, hlo, hhi, -⟩
  exact absurd (UInt8.le_trans hlo hhi) (by decide)

theorem language_literal_append (bs cs : List UInt8) :
    (literal (bs ++ cs)).language = (literal bs).language * (literal cs).language := by
  ext w
  rw [Language.mem_mul]
  constructor
  · rintro rfl
    exact ⟨bs, rfl, cs, rfl, rfl⟩
  · rintro ⟨_, rfl, _, rfl, rfl⟩
    rfl

/-! ### Alternatives and sequences -/

@[simp] theorem language_alternatives (items : List Regex) :
    (alternatives items).language = (items.map language).sum := by
  fun_induction alternatives items with
  | case1 => simp
  | case2 a => simp
  | case3 a rest _ ih => simp [language, ih]

theorem prod_mergeLiterals (items : List Regex) :
    ((mergeLiterals items).map language).prod = (items.map language).prod := by
  fun_induction mergeLiterals items with
  | case1 => rfl
  | case2 bs rest cs merged hmerge ih =>
      rw [hmerge] at ih
      simp only [List.map_cons, List.prod_cons] at ih ⊢
      rw [language_literal_append, mul_assoc, ih]
  | case3 bs rest _ ih => simp [ih]
  | case4 a rest _ ih => simp [ih]

theorem language_foldl_concat (a : Regex) (rest : List Regex) :
    (rest.foldl concat a).language = a.language * (rest.map language).prod := by
  induction rest generalizing a with
  | nil => simp
  | cons b rest ih => simp [ih, language, mul_assoc]

@[simp] theorem language_sequence (items : List Regex) :
    (sequence items).language = (items.map language).prod := by
  rw [sequence, ← prod_mergeLiterals]
  split
  · simp [*]
  · simp [*, language_foldl_concat]

theorem mem_language_alternatives {items : List Regex} {w : List UInt8} :
    w ∈ (alternatives items).language ↔ ∃ a ∈ items, w ∈ a.language := by
  rw [language_alternatives]
  induction items with
  | nil => simp
  | cons a items ih => simp [Language.mem_add, ih]

/-- A word of a sequence is made of one word for each item, in the order of the items. -/
theorem mem_language_sequence {items : List Regex} {w : List UInt8} :
    w ∈ (sequence items).language ↔
      ∃ words, List.Forall₂ (fun v (a : Regex) => v ∈ a.language) words items ∧
        w = words.flatten := by
  rw [language_sequence]
  induction items generalizing w with
  | nil => simp [Language.mem_one]
  | cons a items ih =>
      rw [List.map_cons, List.prod_cons, Language.mem_mul]
      constructor
      · rintro ⟨u, hu, v, hv, rfl⟩
        obtain ⟨words, hwords, rfl⟩ := ih.1 hv
        exact ⟨u :: words, .cons hu hwords, rfl⟩
      · rintro ⟨_, hwords, rfl⟩
        cases hwords with
        | @cons u _ words _ hu hrest =>
            exact ⟨u, hu, words.flatten, ih.2 ⟨words, hrest, rfl⟩, rfl⟩

/-! ### Counts -/

theorem language_plus (r : Regex) : r.plus.language = r.language * KStar.kstar r.language := rfl

theorem language_optional (r : Regex) : r.optional.language = r.language + 1 := rfl

section Powers

variable {l : Language UInt8} {w : List UInt8}

theorem mem_add_one_pow {n : Nat} : w ∈ (l + 1) ^ n ↔ ∃ k ≤ n, w ∈ l ^ k := by
  induction n generalizing w with
  | zero => simp
  | succ n ih =>
      rw [pow_succ, mul_add, mul_one, Language.mem_add, Language.mem_mul]
      constructor
      · rintro (⟨u, hu, v, hv, rfl⟩ | hw)
        · obtain ⟨k, hk, hu⟩ := ih.1 hu
          exact ⟨k + 1, Nat.succ_le_succ hk, pow_succ l k ▸ Language.append_mem_mul hu hv⟩
        · obtain ⟨k, hk, hw⟩ := ih.1 hw
          exact ⟨k, Nat.le_succ_of_le hk, hw⟩
      · rintro ⟨k, hk, hw⟩
        rcases Nat.le_succ_iff.1 hk with hk | rfl
        · exact .inr (ih.2 ⟨k, hk, hw⟩)
        · obtain ⟨u, hu, v, hv, rfl⟩ := Language.mem_mul.1 (pow_succ l n ▸ hw)
          exact .inl ⟨u, ih.2 ⟨n, Nat.le_refl n, hu⟩, v, hv, rfl⟩

theorem mem_pow_mul_kstar {n : Nat} : w ∈ l ^ n * KStar.kstar l ↔ ∃ k, n ≤ k ∧ w ∈ l ^ k := by
  rw [Language.kstar_eq_iSup_pow, Language.mul_iSup, Language.mem_iSup]
  constructor
  · rintro ⟨k, hw⟩
    exact ⟨n + k, Nat.le_add_right n k, pow_add l n k ▸ hw⟩
  · rintro ⟨k, hk, hw⟩
    obtain ⟨j, rfl⟩ := Nat.exists_eq_add_of_le hk
    exact ⟨j, pow_add l n j ▸ hw⟩

theorem mem_pow_mul_add_one_pow {n m : Nat} :
    w ∈ l ^ n * (l + 1) ^ m ↔ ∃ k, n ≤ k ∧ k ≤ n + m ∧ w ∈ l ^ k := by
  rw [Language.mem_mul]
  constructor
  · rintro ⟨u, hu, v, hv, rfl⟩
    obtain ⟨k, hk, hv⟩ := mem_add_one_pow.1 hv
    exact ⟨n + k, Nat.le_add_right n k, Nat.add_le_add_left hk n,
      pow_add l n k ▸ Language.append_mem_mul hu hv⟩
  · rintro ⟨k, hle, hk, hw⟩
    obtain ⟨j, rfl⟩ := Nat.exists_eq_add_of_le hle
    obtain ⟨u, hu, v, hv, rfl⟩ := Language.mem_mul.1 (pow_add l n j ▸ hw)
    exact ⟨u, hu, v, mem_add_one_pow.2 ⟨j, Nat.le_of_add_le_add_left hk, hv⟩, rfl⟩

end Powers

/-- A count allows the powers between its bounds; there are none if they are out of order. -/
theorem mem_language_repeat {r : Regex} {min : Nat} {max : Option Nat} {w : List UInt8} :
    w ∈ (r.repeat min max).language ↔
      ∃ k, min ≤ k ∧ (∀ m, max = some m → k ≤ m) ∧ w ∈ r.language ^ k := by
  cases max with
  | none =>
      have hlanguage : (r.repeat min none).language = r.language ^ min *
          KStar.kstar r.language := by
        simp [«repeat», language]
      simp [hlanguage, mem_pow_mul_kstar]
  | some max =>
      rw [«repeat»]
      split
      · rename_i hlt
        simp only [language_nothing, Language.notMem_zero, false_iff]
        rintro ⟨k, hmin, hmax, -⟩
        have hk := hmax max rfl
        omega
      · rename_i hle
        have hsum : min + (max - min) = max := by omega
        simp [language_optional, mem_pow_mul_add_one_pow, hsum]

theorem mem_language_plus {r : Regex} {w : List UInt8} :
    w ∈ r.plus.language ↔ ∃ k, 1 ≤ k ∧ w ∈ r.language ^ k := by
  have hpower := mem_pow_mul_kstar (l := r.language) (w := w) (n := 1)
  rwa [pow_one] at hpower

theorem mem_language_optional {r : Regex} {w : List UInt8} :
    w ∈ r.optional.language ↔ ∃ k ≤ 1, w ∈ r.language ^ k := by
  have hpower := mem_add_one_pow (l := r.language) (w := w) (n := 1)
  rwa [pow_one] at hpower

/-! ### Sets of bytes -/

theorem mem_byteRuns (bytes : List UInt8) :
    (∀ run ∈ byteRuns bytes, run.1 ≤ run.2) ∧
      ∀ b, (∃ run ∈ byteRuns bytes, run.1 ≤ b ∧ b ≤ run.2) ↔ b ∈ bytes := by
  induction bytes with
  | nil => simp [byteRuns]
  | cons c rest ih =>
      obtain ⟨hordered, hcover⟩ := ih
      have hsingle : ∀ b : UInt8, c ≤ b ∧ b ≤ c ↔ b = c := fun b =>
        ⟨fun h => UInt8.le_antisymm h.2 h.1, fun h => h ▸ ⟨UInt8.le_refl b, UInt8.le_refl b⟩⟩
      rw [byteRuns]
      split
      · rename_i hruns
        simp only [hruns] at hcover
        refine ⟨by simp, fun b => ?_⟩
        rw [List.mem_cons, ← hcover b]
        simp [hsingle]
      · rename_i lo hi runs hruns
        rw [hruns, List.forall_mem_cons] at hordered
        simp only [hruns, List.exists_mem_cons_iff] at hcover
        split
        · -- the new byte is right below the first run, which takes it in
          rename_i hnext
          have hjoin : ∀ b : UInt8, c ≤ b ∧ b ≤ hi ↔ b = c ∨ lo ≤ b ∧ b ≤ hi := by
            intro b
            have hrun := hordered.1
            simp only [UInt8.le_iff_toNat_le, ← UInt8.toNat_inj] at hrun ⊢
            omega
          refine ⟨?_, fun b => ?_⟩
          · rw [List.forall_mem_cons]
            exact ⟨((hjoin c).2 (.inl rfl)).2, hordered.2⟩
          · rw [List.mem_cons, ← hcover b, List.exists_mem_cons_iff, hjoin b, or_assoc]
        · refine ⟨?_, fun b => ?_⟩
          · rw [List.forall_mem_cons, List.forall_mem_cons]
            exact ⟨UInt8.le_refl c, hordered⟩
          · rw [List.mem_cons, ← hcover b, List.exists_mem_cons_iff, List.exists_mem_cons_iff,
              hsingle b]

theorem mem_bytes (b : UInt8) : b ∈ (List.range 256).map Nat.toUInt8 :=
  List.mem_map.2 ⟨b.toNat, List.mem_range.2 b.toNat_lt, UInt8.ofNat_toNat⟩

theorem mem_language_ofByteSet {set : UInt8 → Bool} {w : List UInt8} :
    w ∈ (ofByteSet set).language ↔ ∃ b, set b = true ∧ w = [b] := by
  have hsum : ∀ runs : List (UInt8 × UInt8),
      w ∈ ((runs.map fun run => range run.1 run.2).map language).sum ↔
        ∃ b, (∃ run ∈ runs, run.1 ≤ b ∧ b ≤ run.2) ∧ w = [b] := by
    intro runs
    induction runs with
    | nil => simp
    | cons run runs ih =>
        rw [List.map_cons, List.map_cons, List.sum_cons, Language.mem_add, ih]
        simp only [List.exists_mem_cons_iff, or_and_right, exists_or, and_assoc]
        rfl
  rw [ofByteSet, language_alternatives]
  refine (hsum _).trans (exists_congr fun b => ?_)
  rw [(mem_byteRuns _).2 b, List.mem_filter]
  simp [mem_bytes b]

/-- What is derived from the constructors has the words that its name promises: those of any item,
one word of each item in turn, as many words in a row as a count allows, or one byte of a set. -/
theorem derived_operators_language :
    (∀ items w, w ∈ (alternatives items).language ↔ ∃ a ∈ items, w ∈ a.language) ∧
    (∀ items w, w ∈ (sequence items).language ↔
      ∃ words, List.Forall₂ (fun v (a : Regex) => v ∈ a.language) words items ∧ w = words.flatten) ∧
    (∀ (a : Regex) min max w, w ∈ (a.repeat min (some max)).language ↔
      ∃ k, min ≤ k ∧ k ≤ max ∧ w ∈ a.language ^ k) ∧
    (∀ (a : Regex) min w, w ∈ (a.repeat min none).language ↔ ∃ k, min ≤ k ∧ w ∈ a.language ^ k) ∧
    (∀ (a : Regex) w, w ∈ a.plus.language ↔ ∃ k, 1 ≤ k ∧ w ∈ a.language ^ k) ∧
    (∀ (a : Regex) w, w ∈ a.optional.language ↔ ∃ k ≤ 1, w ∈ a.language ^ k) ∧
    ∀ set w, w ∈ (ofByteSet set).language ↔ ∃ b, set b = true ∧ w = [b] := by
  refine ⟨fun _ _ => mem_language_alternatives, fun _ _ => mem_language_sequence,
    fun a min max w => ?_, fun a min w => ?_, fun _ _ => mem_language_plus,
    fun _ _ => mem_language_optional, fun _ _ => mem_language_ofByteSet⟩
  · simp [mem_language_repeat]
  · simp [mem_language_repeat]

/-! ### Words of single bytes -/

def singletons (s : UInt8 → Prop) : Language UInt8 := {w | ∃ b, s b ∧ w = [b]}

theorem language_range (lo hi : UInt8) :
    (range lo hi).language = singletons fun b => lo ≤ b ∧ b ≤ hi := by
  ext w
  constructor
  · rintro ⟨b, hlo, hhi, rfl⟩
    exact ⟨b, ⟨hlo, hhi⟩, rfl⟩
  · rintro ⟨b, ⟨hlo, hhi⟩, rfl⟩
    exact ⟨b, hlo, hhi, rfl⟩

theorem language_or (a b : Regex) : (or a b).language = a.language + b.language := rfl

theorem singletons_add (s s' : UInt8 → Prop) :
    singletons s + singletons s' = singletons fun b => s b ∨ s' b := by
  ext w
  rw [Language.mem_add]
  constructor
  · rintro (⟨b, hb, rfl⟩ | ⟨b, hb, rfl⟩)
    · exact ⟨b, .inl hb, rfl⟩
    · exact ⟨b, .inr hb, rfl⟩
  · rintro ⟨b, hb | hb, rfl⟩
    · exact .inl ⟨b, hb, rfl⟩
    · exact .inr ⟨b, hb, rfl⟩

theorem mem_singletons_mul {s : UInt8 → Prop} {l : Language UInt8} {w : List UInt8} :
    w ∈ singletons s * l ↔ ∃ b v, s b ∧ v ∈ l ∧ w = b :: v := by
  rw [Language.mem_mul]
  constructor
  · rintro ⟨_, ⟨b, hb, rfl⟩, v, hv, rfl⟩
    exact ⟨b, v, hb, hv, rfl⟩
  · rintro ⟨b, v, hb, hv, rfl⟩
    exact ⟨[b], ⟨b, hb, rfl⟩, v, hv, rfl⟩

theorem mem_kstar_singletons {s : UInt8 → Prop} {w : List UInt8} :
    w ∈ KStar.kstar (singletons s) ↔ ∀ b ∈ w, s b := by
  rw [Language.mem_kstar]
  constructor
  · rintro ⟨words, rfl, hwords⟩ b hb
    obtain ⟨v, hv, hb⟩ := List.mem_flatten.1 hb
    obtain ⟨c, hc, rfl⟩ := hwords v hv
    rwa [List.mem_singleton.1 hb]
  · intro h
    refine ⟨w.map fun b => [b], by rw [← List.flatMap_def, List.flatMap_singleton'], fun v hv => ?_⟩
    obtain ⟨b, hb, rfl⟩ := List.mem_map.1 hv
    exact ⟨b, h b hb, rfl⟩

/-- A word of a star that is not empty begins with a word that is not. -/
theorem cons_mem_kstar {l : Language UInt8} {b : UInt8} {w : List UInt8}
    (h : b :: w ∈ KStar.kstar l) : ∃ u v, b :: u ∈ l ∧ v ∈ KStar.kstar l ∧ w = u ++ v := by
  obtain ⟨words, hwords, hmem⟩ := Language.mem_kstar_iff_exists_nonempty.1 h
  cases words with
  | nil => contradiction
  | cons first words =>
      rw [List.forall_mem_cons] at hmem
      cases first with
      | nil => exact absurd rfl hmem.1.2
      | cons c u =>
          rw [List.flatten_cons, List.cons_append, List.cons.injEq] at hwords
          obtain ⟨rfl, rfl⟩ := hwords
          exact ⟨u, words.flatten, hmem.1.1,
            Language.mem_kstar.2 ⟨words, rfl, fun v hv => (hmem.2 v hv).1⟩, rfl⟩

end Seedling.Regex
