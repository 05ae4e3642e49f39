import Seedling.Proofs.Automaton.Build
import Seedling.Proofs.Automaton.Complement
import Seedling.Proofs.Automaton.Subset
import Seedling.Proofs.Regex.Language
import Seedling.Regex.Automaton

/-!
Fragments accept the language of their expression. A fragment is built on top of an automaton:
the states that were there keep their edges, and no edge leads from the new states back to them.
What leads from an entry to an exit of a fragment is therefore settled when the fragment is
built, and each operator can be judged by the paths of its operands and the few edges it adds.
-/

namespace Seedling.Regex

open Automaton

/-- The second automaton is the first with more states, which lead to each other only. -/
structure Grows (nfa nfa' : Nfa) : Prop where
  base : nfa.WellFormed
  wellFormed : nfa'.WellFormed
  size_le : nfa.size ≤ nfa'.size
  old : ∀ {s o t}, s < nfa.size → (nfa'.Edge s o t ↔ nfa.Edge s o t)
  new : ∀ {s o t}, nfa.size ≤ s → nfa'.Edge s o t → nfa.size ≤ t
  start_eq : nfa'.start = nfa.start
  final_eq : nfa'.final = nfa.final

namespace Grows

variable {nfa nfa' nfa'' : Nfa}

theorem refl (h : nfa.WellFormed) : Grows nfa nfa :=
  ⟨h, h, Nat.le_refl _, fun _ => Iff.rfl, fun _ hedge => absurd (h.source_lt hedge) (by omega),
    rfl, rfl⟩

theorem edge (h : Grows nfa nfa') {s t : Nat} {o : Option UInt8} (hedge : nfa.Edge s o t) :
    nfa'.Edge s o t :=
  (h.old (h.base.source_lt hedge)).2 hedge

theorem path (h : Grows nfa nfa') {s t : Nat} {w : List UInt8} (hp : nfa.Path s w t) :
    nfa'.Path s w t :=
  hp.mono fun _ _ _ => h.edge

theorem trans (h : Grows nfa nfa') (h' : Grows nfa' nfa'') : Grows nfa nfa'' := by
  refine ⟨h.base, h'.wellFormed, Nat.le_trans h.size_le h'.size_le, ?_, ?_,
    h'.start_eq.trans h.start_eq, h'.final_eq.trans h.final_eq⟩
  · intro s o t hs
    rw [h'.old (Nat.lt_of_lt_of_le hs h.size_le), h.old hs]
  · intro s o t hs hedge
    by_cases hmid : s < nfa'.size
    · exact h.new hs ((h'.old hmid).1 hedge)
    · exact Nat.le_trans h.size_le (h'.new (Nat.le_of_not_lt hmid) hedge)

theorem addNamed (h : Grows nfa nfa') (name : String) : Grows nfa (nfa'.addNamed name) := by
  refine h.trans ⟨h.wellFormed, h.wellFormed.addNamed name, ?_, ?_, ?_, rfl, rfl⟩
  · simp
  · exact fun _ => Nfa.edge_addNamed
  · intro s o t hs hedge
    have hlt := h.wellFormed.source_lt (Nfa.edge_addNamed.1 hedge)
    omega

theorem addState (h : Grows nfa nfa') : Grows nfa nfa'.addState := h.addNamed _

theorem of_edge_iff (h : Grows nfa nfa') (hwf : nfa''.WellFormed) (hsize : nfa''.size = nfa'.size)
    {joined : Nat → Option UInt8 → Nat → Prop}
    (hedge : ∀ s o t, nfa''.Edge s o t ↔ nfa'.Edge s o t ∨ joined s o t)
    (hnew : ∀ s o t, joined s o t → nfa.size ≤ s ∧ nfa.size ≤ t)
    (hstart : nfa''.start = nfa'.start) (hfinal : nfa''.final = nfa'.final) :
    Grows nfa nfa'' := by
  refine ⟨h.base, hwf, hsize ▸ h.size_le, ?_, ?_, hstart.trans h.start_eq,
    hfinal.trans h.final_eq⟩
  · intro s o t hs
    rw [hedge, ← h.old hs]
    exact or_iff_left fun hj => absurd (hnew s o t hj).1 (by omega)
  · intro s o t hs ht
    rcases (hedge s o t).1 ht with ht | hj
    · exact h.new hs ht
    · exact (hnew s o t hj).2

end Grows

theorem addEpsilons_start (nfa : Nfa) (sources targets : List Nat) :
    (nfa.addEpsilons sources targets).start = nfa.start ∧
      (nfa.addEpsilons sources targets).final = nfa.final := by
  have hinner : ∀ (s : Nat) (targets : List Nat) (nfa : Nfa),
      (targets.foldl (fun nfa t => nfa.addEpsilon s t) nfa).start = nfa.start ∧
        (targets.foldl (fun nfa t => nfa.addEpsilon s t) nfa).final = nfa.final := by
    intro s targets
    induction targets with
    | nil => exact fun _ => ⟨rfl, rfl⟩
    | cons t targets ih => exact fun nfa => ih (nfa.addEpsilon s t)
  induction sources generalizing nfa with
  | nil => exact ⟨rfl, rfl⟩
  | cons s sources ih =>
      obtain ⟨hstart, hfinal⟩ := hinner s targets nfa
      obtain ⟨hstart', hfinal'⟩ := ih (targets.foldl (fun nfa t => nfa.addEpsilon s t) nfa)
      exact ⟨hstart'.trans hstart, hfinal'.trans hfinal⟩

theorem Grows.addEpsilons {nfa nfa' : Nfa} (h : Grows nfa nfa') {sources targets : List Nat}
    (hs : ∀ s ∈ sources, nfa.size ≤ s ∧ s < nfa'.size)
    (ht : ∀ t ∈ targets, nfa.size ≤ t ∧ t < nfa'.size) :
    Grows nfa (nfa'.addEpsilons sources targets) ∧
      (nfa'.addEpsilons sources targets).size = nfa'.size ∧
      ∀ x o y, (nfa'.addEpsilons sources targets).Edge x o y ↔
        nfa'.Edge x o y ∨ (x ∈ sources ∧ o = none ∧ y ∈ targets) := by
  obtain ⟨hwf, hsize, hedge⟩ := Nfa.addEpsilons_spec h.wellFormed (fun s hmem => (hs s hmem).2)
    (fun t hmem => (ht t hmem).2)
  obtain ⟨hstart, hfinal⟩ := addEpsilons_start nfa' sources targets
  refine ⟨h.of_edge_iff hwf hsize hedge ?_ hstart hfinal, hsize, hedge⟩
  rintro s o t ⟨hsmem, _, htmem⟩
  exact ⟨(hs s hsmem).1, (ht t htmem).1⟩

theorem Grows.addEpsilon {nfa nfa' : Nfa} (h : Grows nfa nfa') {s t : Nat}
    (hs : nfa.size ≤ s ∧ s < nfa'.size) (ht : nfa.size ≤ t ∧ t < nfa'.size) :
    Grows nfa (nfa'.addEpsilon s t) ∧
      ∀ x o y, (nfa'.addEpsilon s t).Edge x o y ↔
        nfa'.Edge x o y ∨ (x = s ∧ o = none ∧ y = t) := by
  have hedge : ∀ x o y, (nfa'.addEpsilon s t).Edge x o y ↔
      nfa'.Edge x o y ∨ (x = s ∧ o = none ∧ y = t) := fun x o y =>
    Nfa.edge_addEpsilon h.wellFormed hs.2
  refine ⟨h.of_edge_iff (h.wellFormed.addEpsilon hs.2 ht.2) rfl hedge ?_ rfl rfl, hedge⟩
  rintro x o y ⟨rfl, _, rfl⟩
  exact ⟨hs.1, ht.1⟩

/-- A fragment for a language: its entries and exits are new states, and the words that lead from an
entry to an exit are those of the language. -/
structure Builds (l : Language UInt8) (nfa : Nfa) (x : Fragment) (nfa' : Nfa) : Prop where
  grows : Grows nfa nfa'
  starts : ∀ s ∈ x.starts, nfa.size ≤ s ∧ s < nfa'.size
  finals : ∀ f ∈ x.finals, nfa.size ≤ f ∧ f < nfa'.size
  accepts : ∀ w, w ∈ l ↔ ∃ s ∈ x.starts, ∃ f ∈ x.finals, nfa'.Path s w f

/-! ### Literals and ranges -/

theorem Grows.addEdge {nfa nfa' : Nfa} (h : Grows nfa nfa') {s t : Nat} (b : UInt8)
    (hs : nfa.size ≤ s ∧ s < nfa'.size) (ht : nfa.size ≤ t ∧ t < nfa'.size) :
    Grows nfa (nfa'.addEdge s b t) := by
  apply h.of_edge_iff (h.wellFormed.addEdge hs.2 ht.2) rfl
    (fun x o y => Nfa.edge_addEdge h.wellFormed hs.2)
  · rintro x o y ⟨rfl, _, rfl⟩
    exact ⟨hs.1, ht.1⟩
  · rfl
  · rfl

theorem chain_grows {base : Nfa} (bs : List UInt8) {last : Nat} {nfa : Nfa} (h : Grows base nfa)
    (hlast : base.size ≤ last ∧ last < nfa.size) :
    Grows base (chain bs last nfa).2 ∧
      base.size ≤ (chain bs last nfa).1 ∧ (chain bs last nfa).1 < (chain bs last nfa).2.size := by
  induction bs generalizing last nfa with
  | nil => exact ⟨h, hlast⟩
  | cons b bs ih =>
      have hle := h.size_le
      have hnew : base.size ≤ nfa.size ∧ nfa.size < nfa.addState.size := ⟨hle, by simp⟩
      have hold : base.size ≤ last ∧ last < nfa.addState.size :=
        ⟨hlast.1, by rw [Nfa.size_addState]; omega⟩
      exact ih (h.addState.addEdge b hold hnew) hnew

theorem le_chain (bs : List UInt8) {last : Nat} {nfa : Nfa} (hlast : last < nfa.size) :
    last ≤ (chain bs last nfa).1 := by
  induction bs generalizing last nfa with
  | nil => exact Nat.le_refl _
  | cons b bs ih =>
      have hnext : nfa.size < (nfa.addState.addEdge last b nfa.size).size := by simp
      have hle := ih hnext
      rw [chain]
      omega

/-- A chain adds edges from its first state and from new states only. -/
theorem chain_old (bs : List UInt8) {last : Nat} {nfa : Nfa} (h : nfa.WellFormed)
    (hlast : last < nfa.size) {s t : Nat} {o : Option UInt8} (hs : s < nfa.size)
    (hne : s ≠ last) : (chain bs last nfa).2.Edge s o t ↔ nfa.Edge s o t := by
  induction bs generalizing last nfa with
  | nil => exact Iff.rfl
  | cons b bs ih =>
      have hlast' : last < nfa.addState.size := by rw [Nfa.size_addState]; omega
      have hwf := h.addState.addEdge (b := b) hlast' (t := nfa.size) (by simp)
      rw [chain, ih hwf (by simp) (by simp; omega) (by omega),
        Nfa.edge_addEdge h.addState hlast', Nfa.edge_addState]
      exact or_iff_left fun hj => hne hj.1

theorem chain_path (bs : List UInt8) {last : Nat} {nfa : Nfa} (h : nfa.WellFormed)
    (hlast : last < nfa.size) (hquiet : ∀ o t, ¬ nfa.Edge last o t) (w : List UInt8) :
    (chain bs last nfa).2.Path last w (chain bs last nfa).1 ↔ w = bs := by
  induction bs generalizing last nfa w with
  | nil =>
      constructor
      · intro hp
        cases hp with
        | nil _ => rfl
        | step hedge _ => exact absurd hedge (hquiet _ _)
      · rintro rfl
        exact .nil _
  | cons b bs ih =>
      have hlast' : last < nfa.addState.size := by rw [Nfa.size_addState]; omega
      have hwf := h.addState.addEdge (b := b) hlast' (t := nfa.size) (by simp)
      have hsize : nfa.size < (nfa.addState.addEdge last b nfa.size).size := by simp
      have hquiet' : ∀ o t, ¬ (nfa.addState.addEdge last b nfa.size).Edge nfa.size o t := by
        intro o t hedge
        rcases (Nfa.edge_addEdge h.addState hlast').1 hedge with hedge | ⟨heq, _⟩
        · have hlt := h.source_lt (Nfa.edge_addState.1 hedge)
          omega
        · omega
      have hedge : ∀ o t, (chain (b :: bs) last nfa).2.Edge last o t ↔
          o = some b ∧ t = nfa.size := by
        intro o t
        rw [chain, chain_old bs hwf hsize (by rw [Nfa.size_addEdge]; exact hlast') (by omega),
          Nfa.edge_addEdge h.addState hlast', Nfa.edge_addState]
        simp [hquiet o t]
      -- The chain ends at a new state, so a path to its end takes the only edge there is.
      have hend : nfa.size ≤ (chain (b :: bs) last nfa).1 := le_chain bs hsize
      have hrest := ih hwf hsize hquiet'
      constructor
      · intro hp
        rcases Nfa.path_iff.1 hp with ⟨heq, _⟩ | ⟨o, t, v, hstep, hp, rfl⟩
        · omega
        · obtain ⟨rfl, rfl⟩ := (hedge _ _).1 hstep
          rw [(hrest _).1 hp]
          rfl
      · rintro rfl
        exact Nfa.Path.step ((hedge (some b) nfa.size).2 ⟨rfl, rfl⟩) ((hrest bs).2 rfl)

theorem builds_literal {nfa : Nfa} (h : nfa.WellFormed) (bs : List UInt8) :
    Builds (language (.literal bs)) nfa (fragment (.literal bs) nfa).1
      (fragment (.literal bs) nfa).2 := by
  have hnew : nfa.size < nfa.addState.size := by simp
  have hquiet : ∀ o t, ¬ nfa.addState.Edge nfa.size o t := by
    intro o t hedge
    exact Nat.lt_irrefl _ (h.source_lt (Nfa.edge_addState.1 hedge))
  obtain ⟨hgrows, hlast⟩ := chain_grows bs (Grows.refl h).addState ⟨Nat.le_refl _, hnew⟩
  have hsize : nfa.size < (chain bs nfa.size nfa.addState).2.size :=
    Nat.lt_of_le_of_lt (le_chain bs hnew) hlast.2
  refine ⟨hgrows, ?_, ?_, ?_⟩
  · intro s hs
    obtain rfl := List.mem_singleton.1 hs
    exact ⟨Nat.le_refl _, hsize⟩
  · intro f hf
    obtain rfl := List.mem_singleton.1 hf
    exact hlast
  · intro w
    have hpath := chain_path bs h.addState hnew hquiet w
    simp only [fragment, List.mem_singleton, exists_eq_left]
    exact hpath.symm

theorem foldl_addEdge_spec {base nfa : Nfa} (h : Grows base nfa) {s t : Nat}
    (hs : base.size ≤ s ∧ s < nfa.size) (ht : base.size ≤ t ∧ t < nfa.size) (bs : List UInt8) :
    Grows base (bs.foldl (fun nfa b => nfa.addEdge s b t) nfa) ∧
      (bs.foldl (fun nfa b => nfa.addEdge s b t) nfa).size = nfa.size ∧
      ∀ x o y, (bs.foldl (fun nfa b => nfa.addEdge s b t) nfa).Edge x o y ↔
        nfa.Edge x o y ∨ (x = s ∧ (∃ b ∈ bs, o = some b) ∧ y = t) := by
  induction bs generalizing nfa with
  | nil => exact ⟨h, rfl, by simp⟩
  | cons b bs ih =>
      obtain ⟨hgrows, hsize, hedge⟩ := ih (h.addEdge b hs ht) hs ht
      refine ⟨hgrows, hsize, ?_⟩
      intro x o y
      rw [List.foldl_cons, hedge, Nfa.edge_addEdge h.wellFormed hs.2]
      simp only [List.mem_cons, exists_eq_or_imp]
      tauto

theorem mem_bytesBetween {lo hi b : UInt8} : b ∈ bytesBetween lo hi ↔ lo ≤ b ∧ b ≤ hi := by
  simp only [bytesBetween, List.mem_map, List.mem_range'_1, UInt8.le_iff_toNat_le]
  constructor
  · rintro ⟨n, ⟨hlo, hhi⟩, rfl⟩
    have hlt := hi.toNat_lt
    rw [UInt8.toNat_ofNat_of_lt' (by simp [UInt8.size]; omega)]
    omega
  · intro h
    exact ⟨b.toNat, by omega, UInt8.ofNat_toNat⟩

theorem builds_range {nfa : Nfa} (h : nfa.WellFormed) (lo hi : UInt8) :
    Builds (language (.range lo hi)) nfa (fragment (.range lo hi) nfa).1
      (fragment (.range lo hi) nfa).2 := by
  have hs : nfa.size ≤ nfa.size ∧ nfa.size < nfa.addState.addState.size := by
    rw [Nfa.size_addState, Nfa.size_addState]
    omega
  have ht : nfa.size ≤ nfa.size + 1 ∧ nfa.size + 1 < nfa.addState.addState.size := by simp
  obtain ⟨hgrows, hsize, hedge⟩ := foldl_addEdge_spec (Grows.refl h).addState.addState hs ht
    (bytesBetween lo hi)
  have hquiet : ∀ s o t, nfa.size ≤ s → ¬ nfa.addState.addState.Edge s o t := by
    intro s o t hle hedge
    have hlt := h.source_lt (Nfa.edge_addState.1 (Nfa.edge_addState.1 hedge))
    omega
  refine ⟨hgrows, ?_, ?_, ?_⟩
  · intro s hmem
    obtain rfl := List.mem_singleton.1 hmem
    exact ⟨hs.1, hsize ▸ hs.2⟩
  · intro f hmem
    obtain rfl := List.mem_singleton.1 hmem
    exact ⟨ht.1, hsize ▸ ht.2⟩
  · intro w
    simp only [fragment, List.mem_singleton, exists_eq_left]
    constructor
    · rintro ⟨b, hlo, hhi, rfl⟩
      exact Nfa.Path.single ((hedge _ (some b) _).2
        (.inr ⟨rfl, ⟨b, mem_bytesBetween.2 ⟨hlo, hhi⟩, rfl⟩, rfl⟩))
    · intro hp
      rcases Nfa.path_iff.1 hp with ⟨heq, _⟩ | ⟨o, t, v, hstep, hp, rfl⟩
      · omega
      obtain ⟨_, ⟨b, hb, rfl⟩, rfl⟩ :=
        ((hedge _ _ _).1 hstep).resolve_left (hquiet _ _ _ (Nat.le_refl _))
      obtain ⟨hlo, hhi⟩ := mem_bytesBetween.1 hb
      rcases Nfa.path_iff.1 hp with ⟨_, rfl⟩ | ⟨o, t, v, hstep, _, _⟩
      · exact ⟨b, hlo, hhi, rfl⟩
      rcases (hedge _ _ _).1 hstep with hold | ⟨heq, _⟩
      · exact absurd hold (hquiet _ _ _ (Nat.le_succ _))
      · omega

end Seedling.Regex
