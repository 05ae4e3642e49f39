import Seedling.Proofs.Automaton.Minimize

/-!
Minimization merges exactly the equivalent states. Two states are equivalent when no word tells
them apart: an initial partition that separates the kinds of states is never refined between
equivalent states, and a stable one has only equivalent states in a block. So the blocks at the
end are the classes of equivalent states, and a second round finds every state alone.
-/

namespace Seedling.Automaton.Dfa

/-! ### Equivalent states -/

/-- Ends of runs that cannot be told apart: both missing, one state, or two that may be merged
and are both final or both not. -/
inductive AlikeEnds (d : Dfa) : Option Nat → Option Nat → Prop where
  | missing : AlikeEnds d none none
  | same (s : Nat) : AlikeEnds d (some s) (some s)
  | mergeable {s t : Nat} : s ∉ d.unmergeable → t ∉ d.unmergeable → (s ∈ d.final ↔ t ∈ d.final) →
      AlikeEnds d (some s) (some t)

/-- No word tells the states apart. -/
def Equivalent (d : Dfa) (p q : Nat) : Prop := p = q ∨ ∀ w, d.AlikeEnds (d.run p w) (d.run q w)

variable {d : Dfa} {blocks : Partition} {p q s t : Nat}

theorem kind_of_mem (h : s ∈ d.unmergeable) : d.kind s = .alone s := by
  simp [kind, SortedSet.contains, h]

theorem kind_of_not_mem (h : s ∉ d.unmergeable) :
    d.kind s = if d.isFinal s then .final else .other := by
  simp [kind, SortedSet.contains, h]

theorem kind_ne_alone (h : s ∉ d.unmergeable) (t : Nat) : d.kind s ≠ .alone t := by
  rw [kind_of_not_mem h]
  split <;> exact nofun

theorem kind_eq_iff : d.kind s = d.kind t ↔
    s = t ∨ s ∉ d.unmergeable ∧ t ∉ d.unmergeable ∧ (s ∈ d.final ↔ t ∈ d.final) := by
  by_cases hs : s ∈ d.unmergeable <;> by_cases ht : t ∈ d.unmergeable
  · simp [kind_of_mem hs, kind_of_mem ht, hs]
  · have hne : s ≠ t := fun h => ht (h ▸ hs)
    simp [kind_of_mem hs, (kind_ne_alone ht s).symm, hs, hne]
  · have hne : s ≠ t := fun h => hs (h ▸ ht)
    simp [kind_of_mem ht, kind_ne_alone hs t, ht, hne]
  · rw [kind_of_not_mem hs, kind_of_not_mem ht, ← isFinal_iff, ← isFinal_iff]
    constructor
    · intro h
      refine .inr ⟨hs, ht, ?_⟩
      cases hfs : d.isFinal s <;> cases hft : d.isFinal t <;> simp_all
    · rintro (rfl | ⟨-, -, h⟩)
      · rfl
      · rw [Bool.eq_iff_iff.2 h]

theorem alikeEnds_iff {o o' : Option Nat} :
    d.AlikeEnds o o' ↔ o.map d.kind = o'.map d.kind := by
  constructor
  · rintro (_ | s | ⟨hs, ht, hfinal⟩)
    · rfl
    · rfl
    · exact congrArg some (kind_eq_iff.2 (.inr ⟨hs, ht, hfinal⟩))
  · intro h
    cases o with
    | none =>
        rw [Option.map_none, eq_comm, Option.map_eq_none_iff] at h
        rw [h]
        exact .missing
    | some s =>
        rw [Option.map_some, eq_comm, Option.map_eq_some_iff] at h
        obtain ⟨t, rfl, hkind⟩ := h
        rcases kind_eq_iff.1 hkind.symm with rfl | ⟨hs, ht, hfinal⟩
        · exact .same s
        · exact .mergeable hs ht hfinal

theorem equivalent_iff :
    d.Equivalent p q ↔ ∀ w, (d.run p w).map d.kind = (d.run q w).map d.kind := by
  simp only [Equivalent, alikeEnds_iff]
  constructor
  · rintro (rfl | h)
    · exact fun _ => rfl
    · exact h
  · exact .inr

theorem Equivalent.kind_eq (h : d.Equivalent p q) : d.kind p = d.kind q := by
  simpa using equivalent_iff.1 h []

theorem Equivalent.next? (h : d.Equivalent p q) (b : UInt8) :
    (d.next? p b = none ∧ d.next? q b = none) ∨
      ∃ p' q', d.next? p b = some p' ∧ d.next? q b = some q' ∧ d.Equivalent p' q' := by
  have hword : ∀ w, (d.run p (b :: w)).map d.kind = (d.run q (b :: w)).map d.kind := fun w =>
    equivalent_iff.1 h (b :: w)
  simp only [run_cons] at hword
  have hbyte := hword []
  cases hp : d.next? p b <;> cases hq : d.next? q b <;> rw [hp, hq] at hbyte
  · exact .inl ⟨rfl, rfl⟩
  · simp at hbyte
  · simp at hbyte
  · rename_i p' q'
    refine .inr ⟨p', q', rfl, rfl, equivalent_iff.2 fun w => ?_⟩
    have hrest := hword w
    rwa [hp, hq] at hrest

/-! ### Blocks and classes -/

theorem map_congr_of_map_eq {α β γ : Type} {f : α → β} {g : α → γ} {o o' : Option α}
    (h : o.map f = o'.map f) (hfg : ∀ a, o = some a → ∀ b, o' = some b → f a = f b → g a = g b) :
    o.map g = o'.map g := by
  cases o with
  | none =>
      rw [Option.map_none, eq_comm, Option.map_eq_none_iff] at h
      rw [h]
  | some a =>
      rw [Option.map_some, eq_comm, Option.map_eq_some_iff] at h
      obtain ⟨b, rfl, heq⟩ := h
      exact congrArg some (hfg a rfl b rfl heq.symm)

/-- The partition keeps equivalent states together. -/
def Coarse (d : Dfa) (blocks : Partition) : Prop :=
  ∀ s t, s < d.size → t < d.size → d.Equivalent s t → blockOf blocks s = blockOf blocks t

theorem coarse_initialPartition (d : Dfa) : Coarse d d.initialPartition :=
  fun _ _ hs ht h => ((group_spec d.size d.kind).2 hs ht).2 h.kind_eq

theorem Coarse.refine (hd : d.Valid) (h : Coarse d blocks) : Coarse d (d.refine blocks) := by
  intro s t hs ht heq
  refine (blockOf_refine hs ht).2 ⟨h s t hs ht heq, fun b => ?_⟩
  rcases heq.next? b with ⟨hsb, htb⟩ | ⟨s', t', hsb, htb, heq'⟩
  · rw [hsb, htb]
  · rw [hsb, htb]
    exact congrArg some (h s' t' (hd.next_lt hsb) (hd.next_lt htb) heq')

theorem Coarse.refineAll (hd : d.Valid) (rounds : Nat) (h : Coarse d blocks) :
    Coarse d (d.refineAll rounds blocks) := by
  induction rounds generalizing blocks with
  | zero => exact h
  | succ rounds ih =>
      rw [Dfa.refineAll]
      split
      · dsimp only
        split
        · exact h.refine hd
        · exact ih (h.refine hd)
      · exact h

/-- Words lead from one block of a stable partition to one block. -/
theorem Stable.run (hd : d.Valid) (h : Stable d blocks) (hs : s < d.size) (ht : t < d.size)
    (heq : blockOf blocks s = blockOf blocks t) (w : List UInt8) :
    (d.run s w).map (blockOf blocks) = (d.run t w).map (blockOf blocks) := by
  induction w generalizing s t with
  | nil => exact congrArg some heq
  | cons b w ih =>
      have hbyte := h s t hs ht heq b
      rw [run_cons, run_cons]
      cases hsb : d.next? s b with
      | none =>
          rw [hsb, Option.map_none, eq_comm, Option.map_eq_none_iff] at hbyte
          rw [hbyte]
      | some s' =>
          rw [hsb, Option.map_some, eq_comm, Option.map_eq_some_iff] at hbyte
          obtain ⟨t', htb, hblock⟩ := hbyte
          rw [htb]
          exact ih (hd.next_lt hsb) (hd.next_lt htb) hblock.symm

theorem Stable.equivalent (hd : d.Valid) (hkind : SameKind d blocks) (h : Stable d blocks)
    (hs : s < d.size) (ht : t < d.size) (heq : blockOf blocks s = blockOf blocks t) :
    d.Equivalent s t := by
  refine equivalent_iff.2 fun w => map_congr_of_map_eq (h.run hd hs ht heq w)
    fun s' hs' t' ht' => ?_
  exact hkind s' t' (hd.run_lt hs hs') (hd.run_lt ht ht')

/-- The blocks at the end are the classes of equivalent states. -/
theorem Valid.blockOf_coarsest (hd : d.Valid) (hs : s < d.size) (ht : t < d.size) :
    blockOf d.coarsest s = blockOf d.coarsest t ↔ d.Equivalent s t := by
  obtain ⟨-, hkind, hstable⟩ := hd.coarsest_spec
  constructor
  · exact hstable.equivalent hd hkind hs ht
  · exact (coarse_initialPartition d).refineAll hd d.size s t hs ht

theorem IsPartition.blockCount_eq {n : Nat} (hpart : IsPartition n blocks)
    (h : ∀ s t, s < n → t < n → blockOf blocks s = blockOf blocks t → s = t) :
    blockCount blocks = n := by
  have hinj : Set.InjOn (blockOf blocks) (Finset.range n) := fun s hs t ht =>
    h s t (by simpa using hs) (by simpa using ht)
  have hcard := Finset.card_image_of_injOn hinj
  rwa [hpart.image_eq, Finset.card_range, Finset.card_range] at hcard

/-- Nothing is merged exactly when no two states are equivalent. -/
theorem Valid.minimize?_eq_none_iff (hd : d.Valid) :
    d.minimize? = none ↔ ∀ p q, p < d.size → q < d.size → d.Equivalent p q → p = q := by
  have hpart := hd.coarsest_spec.1
  have hpos := hd.size_pos
  have hcount : d.minimize? = none ↔ blockCount d.coarsest = d.size := by
    have hle := hpart.blockCount_le
    have hblock : 0 < blockCount d.coarsest :=
      Nat.zero_lt_of_lt (hpart.exists_iff.1 ⟨0, hpos, rfl⟩)
    rw [minimize?]
    split
    · exact iff_of_true rfl (by omega)
    · dsimp only
      split <;> simp_all
  rw [hcount]
  constructor
  · intro h p q hp hq heq
    exact hpart.eq_of_blockOf_eq h hp hq ((hd.blockOf_coarsest hp hq).2 heq)
  · intro h
    exact hpart.blockCount_eq fun s t hs ht heq => h s t hs ht ((hd.blockOf_coarsest hs ht).1 heq)

/-! ### What the minimized automaton shows -/

def classOf (d : Dfa) (s : Nat) : Nat :=
  match d.minimize? with
  | none => s
  | some _ => number d.coarsest s

/-- Either nothing is merged and every state stands for itself, or the blocks are the new states. -/
theorem minimized_cases (d : Dfa) :
    (d.minimize? = none ∧ d.minimized = d ∧ d.classOf = id) ∨
      (d.minimized = d.quotient d.coarsest ∧ d.classOf = number d.coarsest) := by
  cases h : d.minimize? with
  | none => exact .inl ⟨rfl, by rw [minimized, h]; rfl, by funext s; rw [classOf, h]; rfl⟩
  | some d' =>
      refine .inr ⟨?_, by funext s; rw [classOf, h]⟩
      rw [minimize?] at h
      rw [minimized, minimize?]
      split at h
      · contradiction
      · rename_i hsize
        rw [if_neg hsize]
        dsimp only at h ⊢
        split at h
        · contradiction
        · rename_i hcount
          rw [if_neg hcount, Option.getD_some]

@[simp] theorem classOf_zero (d : Dfa) : d.classOf 0 = 0 := by
  rcases minimized_cases d with ⟨-, -, h⟩ | ⟨-, h⟩
  · rw [h]
    rfl
  · rw [h, number_zero]

section Valid

variable (hd : d.Valid)

include hd

theorem Valid.classOf_eq_iff (hp : p < d.size) (hq : q < d.size) :
    d.classOf p = d.classOf q ↔ d.Equivalent p q := by
  rcases minimized_cases d with ⟨hnone, -, h⟩ | ⟨-, h⟩
  · rw [h]
    exact ⟨fun heq => .inl heq, hd.minimize?_eq_none_iff.1 hnone p q hp hq⟩
  · rw [h, number_eq_iff, hd.blockOf_coarsest hp hq]

theorem Valid.lt_minimized_size_iff : t < d.minimized.size ↔ ∃ s, s < d.size ∧ d.classOf s = t := by
  rcases minimized_cases d with ⟨-, hmin, h⟩ | ⟨hmin, h⟩
  · rw [hmin, h]
    simp
  · have hpart := hd.coarsest_spec.1
    rw [hmin, h, quotient_size hd hpart]
    constructor
    · exact exists_number_eq hd hpart
    · rintro ⟨s, hs, rfl⟩
      exact number_lt hd hpart hs

theorem Valid.minimized_run (hs : s < d.size) (w : List UInt8) :
    d.minimized.run (d.classOf s) w = (d.run s w).map d.classOf := by
  rcases minimized_cases d with ⟨-, hmin, h⟩ | ⟨hmin, h⟩
  · rw [hmin, h, Option.map_id]
    rfl
  · obtain ⟨hpart, -, hstable⟩ := hd.coarsest_spec
    rw [hmin, h, quotient_run hd hpart hstable hs]

theorem Valid.classOf_mem_final (hs : s < d.size) :
    d.classOf s ∈ d.minimized.final ↔ s ∈ d.final := by
  rcases minimized_cases d with ⟨-, hmin, h⟩ | ⟨hmin, h⟩
  · rw [hmin, h]
    rfl
  · rw [hmin, h, number_mem_final hd hd.coarsest_spec.2.1 hs]

theorem Valid.eq_of_number_eq (hs : s ∈ d.unmergeable) (ht : t < d.size)
    (h : number d.coarsest t = number d.coarsest s) : t = s := by
  have hkind := hd.coarsest_spec.2.1 t s ht (hd.unmergeable_lt hs) (number_eq_iff.1 h)
  rcases kind_eq_iff.1 hkind with heq | ⟨-, hnot, -⟩
  · exact heq
  · exact absurd hs hnot

theorem Valid.classOf_mem_unmergeable (hs : s < d.size) :
    d.classOf s ∈ d.minimized.unmergeable ↔ s ∈ d.unmergeable := by
  rcases minimized_cases d with ⟨-, hmin, h⟩ | ⟨hmin, h⟩
  · rw [hmin, h]
    rfl
  · rw [hmin, h, quotient, SortedSet.mem_ofList, List.mem_map]
    constructor
    · rintro ⟨t, ht, hts⟩
      rwa [hd.eq_of_number_eq ht hs hts.symm]
    · exact fun hs => ⟨s, hs, rfl⟩

theorem Valid.minimized_name (hs : s ∈ d.unmergeable) :
    d.minimized.name (d.classOf s) = d.name s := by
  rcases minimized_cases d with ⟨-, hmin, h⟩ | ⟨hmin, h⟩
  · rw [hmin, h]
    rfl
  · have hpart := hd.coarsest_spec.1
    obtain ⟨members, hlength, hmembers, hnames, -⟩ := exists_members hd hpart
    have hlt := number_lt hd hpart (hd.unmergeable_lt hs)
    have hget := List.getElem?_eq_getElem
      (hlength.symm ▸ hlt : number d.coarsest s < members.length)
    obtain ⟨hfirst, hnumber⟩ := hmembers _ _ hget
    rw [hmin, h, name, hnames, List.getElem?_toArray, List.getElem?_map, hget,
      hd.eq_of_number_eq hs hfirst hnumber]
    rfl

theorem Valid.kind_eq_of_classOf (hs : s < d.size) (ht : t < d.size)
    (h : d.minimized.kind (d.classOf s) = d.minimized.kind (d.classOf t)) :
    d.kind s = d.kind t := by
  rcases kind_eq_iff.1 h with heq | ⟨hs', ht', hfinal⟩
  · exact ((hd.classOf_eq_iff hs ht).1 heq).kind_eq
  · rw [hd.classOf_mem_unmergeable hs] at hs'
    rw [hd.classOf_mem_unmergeable ht] at ht'
    rw [hd.classOf_mem_final hs, hd.classOf_mem_final ht] at hfinal
    exact kind_eq_iff.2 (.inr ⟨hs', ht', hfinal⟩)

theorem Valid.equivalent_of_minimized (hp : p < d.size) (hq : q < d.size)
    (h : d.minimized.Equivalent (d.classOf p) (d.classOf q)) : d.Equivalent p q := by
  refine equivalent_iff.2 fun w => ?_
  have hword := equivalent_iff.1 h w
  rw [hd.minimized_run hp, hd.minimized_run hq, Option.map_map, Option.map_map] at hword
  exact map_congr_of_map_eq hword fun s hs t ht =>
    hd.kind_eq_of_classOf (hd.run_lt hp hs) (hd.run_lt hq ht)

/-- A minimized automaton has no equivalent states left. -/
theorem Valid.minimized_minimize? : d.minimized.minimize? = none := by
  rw [(minimized_valid hd).minimize?_eq_none_iff]
  intro t t' ht ht' heq
  obtain ⟨s, hs, rfl⟩ := hd.lt_minimized_size_iff.1 ht
  obtain ⟨s', hs', rfl⟩ := hd.lt_minimized_size_iff.1 ht'
  exact (hd.classOf_eq_iff hs hs').2 (hd.equivalent_of_minimized hs hs' heq)

end Valid

theorem minimized_eq_self (h : d.minimize? = none) : d.minimized = d := by
  rw [minimized, h]
  rfl

/-- Minimization changes nothing that a word can show, merges exactly the equivalent states,
leaves an automaton without equivalent states as it is, and leaves nothing to merge. -/
theorem minimized_merges_equivalent (hd : d.Valid) :
    (∀ w, (d.minimized.run 0 w = none ↔ d.run 0 w = none) ∧
      ∀ s, d.run 0 w = some s → ∃ t, d.minimized.run 0 w = some t ∧
        (t ∈ d.minimized.final ↔ s ∈ d.final) ∧
        (s ∈ d.unmergeable → t ∈ d.minimized.unmergeable ∧ d.minimized.name t = d.name s)) ∧
      (∀ s w, s < d.size → d.minimized.run (d.classOf s) w = (d.run s w).map d.classOf) ∧
      (∀ p q, p < d.size → q < d.size → (d.classOf p = d.classOf q ↔ d.Equivalent p q)) ∧
      (∀ t, t < d.minimized.size ↔ ∃ s, s < d.size ∧ d.classOf s = t) ∧
      (d.minimize? = none ∧ d.minimized = d ↔
        ∀ p q, p < d.size → q < d.size → d.Equivalent p q → p = q) ∧
      d.minimized.minimize? = none ∧ d.minimized.minimized = d.minimized := by
  refine ⟨fun w => ?_, fun s w hs => hd.minimized_run hs w,
    fun p q hp hq => hd.classOf_eq_iff hp hq, fun t => hd.lt_minimized_size_iff, ?_,
    hd.minimized_minimize?, minimized_eq_self hd.minimized_minimize?⟩
  · have hrun := hd.minimized_run hd.size_pos w
    rw [classOf_zero] at hrun
    rw [hrun, Option.map_eq_none_iff]
    refine ⟨Iff.rfl, fun s hs => ⟨d.classOf s, by rw [hs]; rfl, ?_, fun hmem => ?_⟩⟩
    · exact hd.classOf_mem_final (hd.run_lt hd.size_pos hs)
    · exact ⟨(hd.classOf_mem_unmergeable (hd.unmergeable_lt hmem)).2 hmem, hd.minimized_name hmem⟩
  · rw [← hd.minimize?_eq_none_iff]
    exact and_iff_left_of_imp minimized_eq_self

/-- `x` and `y` in turn, where the state after `y` is a copy of the start; the state after `x`
must keep its name. -/
def turns : Dfa where
  names := #["start", "x", "y"]
  rows := #[.ofList [(120, 1)], .ofList [(121, 2)], .ofList [(120, 1)]]
  final := .singleton 1
  unmergeable := .singleton 1

/-- The copy is merged with the start. -/
theorem turns_minimized :
    turns.Valid ∧ turns.classOf 0 = turns.classOf 2 ∧ turns.minimized ≠ turns ∧
      turns.minimized.minimize? = none := by
  have hparts : ofParts turns.names turns.rows turns.final turns.unmergeable = .ok turns := by
    with_unfolding_all rfl
  have hvalid := valid_of_ofParts hparts
  have hcopy : turns.Equivalent 0 2 := by
    refine equivalent_iff.2 fun w => ?_
    cases w with
    | nil => decide
    | cons b w =>
        rw [run_cons, run_cons]
        rfl
  obtain ⟨-, -, hclass, -, hleft, hagain, -⟩ := minimized_merges_equivalent hvalid
  refine ⟨hvalid, (hclass 0 2 (by decide) (by decide)).2 hcopy, fun hsame => ?_, hagain⟩
  rw [hsame] at hagain
  exact absurd (hleft.1 ⟨hagain, hsame⟩ 0 2 (by decide) (by decide) hcopy) (by decide)

end Seedling.Automaton.Dfa
