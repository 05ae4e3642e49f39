import Mathlib.Data.Finset.Card
import Mathlib.Logic.Relation
import Seedling.Reachability

/-!
The search for reachable numbers finds exactly what is reachable. A number still to be looked at and
a number below the bound that has not been seen are both worth one round; a round uses one up and
turns some of the second kind into the first, so the rounds suffice. In which order the numbers are
looked at makes no difference: every search comes to an end, and to the same one.
-/

namespace Seedling.Reachability

abbrev Reaches (next : Nat → SortedSet Nat) : Nat → Nat → Prop :=
  Relation.ReflTransGen fun n m => m ∈ next n

/-- The numbers below the bound that the search has not come to yet. -/
def unseen (count : Nat) (seen : Std.TreeSet Nat) : Finset Nat :=
  (Finset.range count).filter fun n => n ∉ seen

variable {next : Nat → SortedSet Nat} {count : Nat}

theorem card_unseen_le (seen : Std.TreeSet Nat) : (unseen count seen).card ≤ count := by
  have h := Finset.card_filter_le (Finset.range count) fun n => n ∉ seen
  rwa [Finset.card_range] at h

def fresh (next : Nat → SortedSet Nat) (n : Nat) (seen : Std.TreeSet Nat) : List Nat :=
  (next n).toList.filter fun m => !seen.contains m

theorem mem_fresh {n m : Nat} {seen : Std.TreeSet Nat} :
    m ∈ fresh next n seen ↔ m ∈ next n ∧ m ∉ seen := by
  simp [fresh, ← Std.TreeSet.contains_iff_mem]

theorem nodup_fresh (n : Nat) (seen : Std.TreeSet Nat) : (fresh next n seen).Nodup :=
  ((next n).sorted.imp fun h => Nat.ne_of_lt h).filter _

theorem mem_insertMany {x : Nat} {l : List Nat} {seen : Std.TreeSet Nat} :
    x ∈ seen.insertMany l ↔ x ∈ l ∨ x ∈ seen := by
  rw [Std.TreeSet.mem_insertMany_list, List.contains_iff_mem, or_comm]

/-- Looking at a number keeps the sum of both kinds, but for the number itself. -/
theorem card_unseen_insertMany {n : Nat} (hnext : ∀ m ∈ next n, m < count)
    (seen : Std.TreeSet Nat) :
    (fresh next n seen).length + (unseen count (seen.insertMany (fresh next n seen))).card =
      (unseen count seen).card := by
  have hsub : (fresh next n seen).toFinset ⊆ unseen count seen := by
    intro m hm
    obtain ⟨hmem, hnew⟩ := mem_fresh.1 (List.mem_toFinset.1 hm)
    exact Finset.mem_filter.2 ⟨Finset.mem_range.2 (hnext m hmem), hnew⟩
  have hrest : unseen count (seen.insertMany (fresh next n seen)) =
      unseen count seen \ (fresh next n seen).toFinset := by
    ext x
    simp only [unseen, Finset.mem_filter, Finset.mem_sdiff, List.mem_toFinset, mem_insertMany]
    tauto
  have hcard : (fresh next n seen).toFinset.card = (fresh next n seen).length :=
    List.toFinset_card_of_nodup (nodup_fresh n seen)
  rw [hrest, ← hcard, Nat.add_comm]
  exact Finset.card_sdiff_add_card_eq_card hsub

theorem mem_ofList {x : Nat} {l : List Nat} : x ∈ Std.TreeSet.ofList l ↔ x ∈ l := by
  rw [Std.TreeSet.mem_ofList, List.contains_iff_mem]

/-- Some numbers that no edge leads out of, each of them below the bound if an edge leads to it. -/
def Encloses (next : Nat → SortedSet Nat) (count : Nat) (within : Nat → Prop) : Prop :=
  ∀ n, within n → ∀ m ∈ next n, within m ∧ m < count

theorem Encloses.reaches {within : Nat → Prop} (hnext : Encloses next count within) {s x : Nat}
    (hs : within s) (h : Reaches next s x) : within x := by
  induction h with
  | refl => exact hs
  | tail _ hstep ih => exact (hnext _ ih _ hstep).1

/-! ### Searches -/

/-- A search under way: the numbers still to be looked at, in no particular order, and those
seen. -/
structure Search where
  pending : Multiset Nat
  seen : Std.TreeSet Nat

namespace Search

def start (seeds : SortedSet Nat) : Search := ⟨seeds.toList, .ofList seeds.toList⟩

/-- One of the pending numbers is looked at. -/
inductive Step (next : Nat → SortedSet Nat) : Search → Search → Prop where
  | look (n : Nat) (rest : Multiset Nat) (seen : Std.TreeSet Nat) :
      Step next ⟨n ::ₘ rest, seen⟩ ⟨fresh next n seen + rest, seen.insertMany (fresh next n seen)⟩

/-- The numbers still to be looked at and those that may still turn up. -/
def work (count : Nat) (search : Search) : Nat :=
  search.pending.card + (unseen count search.seen).card

/-- Whichever number it looks at next, the search comes to an end: on the way it looks only at
numbers below the bound, and then it has seen exactly the numbers of the result. -/
inductive Ends (next : Nat → SortedSet Nat) (count : Nat) (result : SortedSet Nat) :
    Search → Prop where
  | done {seen : Std.TreeSet Nat} : members seen = result → Ends next count result ⟨0, seen⟩
  | look {search : Search} : search.pending ≠ 0 → (∀ n ∈ search.pending, n < count) →
      (∀ search', Step next search search' → Ends next count result search') →
      Ends next count result search

/-- What holds of a search all along: it has seen only what is reachable from the seeds, and all
successors of what it has looked at. -/
structure Sound (next : Nat → SortedSet Nat) (seeds : SortedSet Nat) (search : Search) : Prop where
  seeds_seen : ∀ x ∈ seeds, x ∈ search.seen
  pending_seen : ∀ x ∈ search.pending, x ∈ search.seen
  reached : ∀ x ∈ search.seen, ∃ s ∈ seeds, Reaches next s x
  looked : ∀ x ∈ search.seen, x ∈ search.pending ∨ ∀ y ∈ next x, y ∈ search.seen

variable {seeds : SortedSet Nat} {search search' : Search}

theorem sound_start (next : Nat → SortedSet Nat) (seeds : SortedSet Nat) :
    Sound next seeds (start seeds) where
  seeds_seen _ hx := mem_ofList.2 hx
  pending_seen _ hx := mem_ofList.2 (Multiset.mem_coe.1 hx)
  reached x hx := ⟨x, mem_ofList.1 hx, .refl⟩
  looked _ hx := .inl (Multiset.mem_coe.2 (mem_ofList.1 hx))

theorem Sound.step (h : Sound next seeds search) (hstep : Step next search search') :
    Sound next seeds search' := by
  cases hstep with
  | look n rest seen =>
      constructor
      · exact fun x hx => mem_insertMany.2 (.inr (h.seeds_seen x hx))
      · intro x hx
        rcases Multiset.mem_add.1 hx with hx | hx
        · exact mem_insertMany.2 (.inl (Multiset.mem_coe.1 hx))
        · exact mem_insertMany.2 (.inr (h.pending_seen x (Multiset.mem_cons_of_mem hx)))
      · intro x hx
        rcases mem_insertMany.1 hx with hx | hx
        · obtain ⟨s, hs, hreach⟩ := h.reached n (h.pending_seen n (Multiset.mem_cons_self n rest))
          exact ⟨s, hs, hreach.tail (mem_fresh.1 hx).1⟩
        · exact h.reached x hx
      · intro x hx
        rcases mem_insertMany.1 hx with hx | hx
        · exact .inl (Multiset.mem_add.2 (.inl (Multiset.mem_coe.2 hx)))
        -- Only the number that was looked at is no longer pending, and its successors are seen now.
        rcases h.looked x hx with hp | hsucc
        · rcases Multiset.mem_cons.1 hp with rfl | hp
          · right
            intro y hy
            by_cases hys : y ∈ seen
            · exact mem_insertMany.2 (.inr hys)
            · exact mem_insertMany.2 (.inl (mem_fresh.2 ⟨hy, hys⟩))
          · exact .inl (Multiset.mem_add.2 (.inr hp))
        · exact .inr fun y hy => mem_insertMany.2 (.inr (hsucc y hy))

theorem Sound.steps (h : Sound next seeds search)
    (hsteps : Relation.ReflTransGen (Step next) search search') : Sound next seeds search' := by
  induction hsteps with
  | refl => exact h
  | tail _ hstep ih => exact ih.step hstep

/-- A search with nothing left to look at has seen exactly what is reachable. -/
theorem Sound.mem_seen_iff (h : Sound next seeds search) (hdone : search.pending = 0) {x : Nat} :
    x ∈ search.seen ↔ ∃ s ∈ seeds, Reaches next s x := by
  constructor
  · exact h.reached x
  · rintro ⟨s, hs, hreach⟩
    induction hreach with
    | refl => exact h.seeds_seen s hs
    | @tail y z _ hstep ih =>
        have hlooked : ∀ z ∈ next y, z ∈ search.seen :=
          (h.looked y ih).resolve_left (by simp [hdone])
        exact hlooked z hstep

section Bounded

variable {within : Nat → Prop} (hnext : Encloses next count within) (hseeds : ∀ s ∈ seeds, within s)

include hnext hseeds

theorem Sound.pending_within (h : Sound next seeds search) {x : Nat} (hx : x ∈ search.pending) :
    within x := by
  obtain ⟨s, hs, hreach⟩ := h.reached x (h.pending_seen x hx)
  exact hnext.reaches (hseeds s hs) hreach

theorem Sound.work_lt (h : Sound next seeds search) (hstep : Step next search search') :
    search'.work count < search.work count := by
  cases hstep with
  | look n rest seen =>
      have hn := hnext n (h.pending_within hnext hseeds (Multiset.mem_cons_self n rest))
      have hcard := card_unseen_insertMany (fun m hm => (hn m hm).2) seen
      simp only [work, Multiset.card_add, Multiset.coe_card, Multiset.card_cons]
      omega

end Bounded

end Search

/-! ### Exploration -/

section Exploration

variable {within : Nat → Prop} {seeds : SortedSet Nat}

/-- Exploring is searching, and its rounds suffice. -/
theorem explore_steps (hnext : Encloses next count within) (hseeds : ∀ s ∈ seeds, within s)
    (bound : Nat) (pending : List Nat) (seen : Std.TreeSet Nat)
    (hsound : Search.Sound next seeds ⟨pending, seen⟩)
    (hbound : Search.work count ⟨pending, seen⟩ < bound) :
    Relation.ReflTransGen (Search.Step next) ⟨pending, seen⟩
      ⟨0, explore next bound pending seen⟩ := by
  fun_induction explore next bound pending seen with
  | case1 => omega
  | case2 => exact .refl
  | case3 bound n pending seen new ih =>
      have hstep : Search.Step next ⟨(n :: pending : List Nat), seen⟩
          ⟨(new ++ pending : List Nat), seen.insertMany new⟩ := by
        rw [← Multiset.cons_coe, ← Multiset.coe_add]
        exact .look n pending seen
      have hwork := hsound.work_lt hnext hseeds hstep
      exact .head hstep (ih (hsound.step hstep) (by omega))

theorem closure_steps (hnext : Encloses next count within) (hseeds : ∀ s ∈ seeds, within s) :
    ∃ tree, Relation.ReflTransGen (Search.Step next) (.start seeds) ⟨0, tree⟩ ∧
      closure next count seeds = members tree := by
  have hcard := @card_unseen_le count (.ofList seeds.toList)
  refine ⟨_, explore_steps hnext hseeds _ _ _ (Search.sound_start next seeds) ?_, rfl⟩
  simp only [Search.work, Multiset.coe_card, SortedSet.size]
  omega

/-- The closure of some numbers has exactly what is reachable from them, if all of this is below the
bound but perhaps the numbers themselves. -/
theorem mem_closure_iff_of_encloses (hnext : Encloses next count within)
    (hseeds : ∀ s ∈ seeds, within s) {x : Nat} :
    x ∈ closure next count seeds ↔ ∃ s ∈ seeds, Reaches next s x := by
  obtain ⟨tree, hsteps, hclosure⟩ := closure_steps hnext hseeds
  rw [hclosure, mem_members]
  exact ((Search.sound_start next seeds).steps hsteps).mem_seen_iff rfl

/-- A search of a table whose numbers are all in range ends with the closure. -/
theorem Search.Sound.ends (hnext : Encloses next count (· < count))
    (hseeds : ∀ s ∈ seeds, s < count) {search : Search} (h : search.Sound next seeds) :
    search.Ends next count (closure next count seeds) := by
  induction hwork : search.work count using Nat.strong_induction_on generalizing search with
  | h w ih =>
      by_cases hdone : search.pending = 0
      · obtain ⟨pending, seen⟩ := search
        subst hdone
        refine .done (SortedSet.ext_mem fun x => ?_)
        rw [mem_members, mem_closure_iff_of_encloses hnext hseeds]
        exact h.mem_seen_iff rfl
      · refine .look hdone (fun n hn => h.pending_within hnext hseeds hn) fun search' hstep => ?_
        exact ih _ (hwork ▸ h.work_lt hnext hseeds hstep) (h.step hstep) rfl

theorem mem_closure_iff (hnext : ∀ n, ∀ m ∈ next n, m < count) {x : Nat} :
    x ∈ closure next count seeds ↔ ∃ s ∈ seeds, Reaches next s x := by
  have hencloses : Encloses next count fun _ => True := fun n _ m hm => ⟨trivial, hnext n m hm⟩
  exact mem_closure_iff_of_encloses hencloses fun _ _ => trivial

end Exploration

end Seedling.Reachability
