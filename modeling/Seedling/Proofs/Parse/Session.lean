import Mathlib.Data.List.Perm.Subperm
import Seedling.Parse.Eval
import Seedling.Proofs.Parse.Meaning

/-!
What holds of every session of a parse. An entry of the memo table is unsettled exactly while
its rule is in progress at its position; no application is inside another of the same rule at
the same position, nor inside one further on; and what an application drops when its seed grows
never belongs to an application around it.

What is claimed of answers, seeds and logs is left open here: a ledger says it. It also says
which rules can be met again while they are in progress; only those ever grow.
-/

namespace Seedling

/-- What is claimed of the final answers, of the seeds, of the rules that were met again and of
the log. -/
structure Ledger (ω : Type) where
  Final : Answers
  Seed : Answers
  Met : RuleId → Nat → Prop
  Log : ω → Prop

namespace Entry

/-- A match has a result; a failure has none, and tells what failed. -/
def Settled (e : Entry) : Prop :=
  e.state = .matched ∧ e.found?.isSome = true ∨
    e.state = .failed ∧ e.found? = none ∧ e.failure.isSome = true

theorem Settled.isFinal {e : Entry} (h : e.Settled) : e.isFinal = true := by
  rcases h with ⟨h, -⟩ | ⟨h, -⟩ <;> simp [Entry.isFinal, h]

theorem mem_addDependents {e : Entry} {rules : List RuleId} {d : RuleId}
    (h : d ∈ (e.addDependents rules).dependents) : d ∈ e.dependents ∨ d ∈ rules := by
  have hfold : ∀ (rules l : List RuleId),
      d ∈ rules.foldl (fun l r => if l.contains r then l else l ++ [r]) l → d ∈ l ∨ d ∈ rules := by
    intro rules
    induction rules with
    | nil => exact fun l hd => .inl hd
    | cons r rules ih =>
        intro l hd
        rcases ih _ hd with hd | hd
        · dsimp only at hd
          split at hd
          · exact .inl hd
          · rcases List.mem_append.1 hd with hd | hd
            · exact .inl hd
            · rw [List.mem_singleton.1 hd]
              exact .inr List.mem_cons_self
        · exact .inr (List.mem_cons_of_mem r hd)
  exact hfold rules e.dependents h

/-- What may happen to an entry while something else is evaluated: it may be marked if its rule
is met `again`, and rules `new` may come to depend on it. -/
structure Marked (new : RuleId → Prop) (again : Prop) (e e' : Entry) : Prop where
  found : e'.found? = e.found?
  failure : e'.failure = e.failure
  final : e'.isFinal = e.isFinal
  state : e.isFinal = true → e'.state = e.state
  reentered : e.state = .reentered → e'.state = .reentered
  growing : e'.isGrowing = true → e.isGrowing = true ∨ again
  dependents : ∀ d ∈ e'.dependents, d ∈ e.dependents ∨ new d

variable {new : RuleId → Prop} {again : Prop} {e e' e'' : Entry}

theorem Marked.refl (e : Entry) : e.Marked new again e :=
  ⟨rfl, rfl, rfl, fun _ => rfl, fun h => h, .inl, fun _ h => .inl h⟩

theorem Marked.trans (h : e.Marked new again e') (h' : e'.Marked new again e'') :
    e.Marked new again e'' where
  found := h'.found.trans h.found
  failure := h'.failure.trans h.failure
  final := h'.final.trans h.final
  state hfinal := (h'.state (h.final.trans hfinal)).trans (h.state hfinal)
  reentered hre := h'.reentered (h.reentered hre)
  growing hgrow := (h'.growing hgrow).elim h.growing .inr
  dependents d hd := (h'.dependents d hd).elim (h.dependents d) .inr

theorem Marked.imp {new' : RuleId → Prop} {again' : Prop} (h : e.Marked new again e')
    (hnew : ∀ d, new d → new' d) (hagain : again → again') : e.Marked new' again' e' :=
  ⟨h.found, h.failure, h.final, h.state, h.reentered,
    fun hgrow => (h.growing hgrow).imp_right hagain,
    fun d hd => (h.dependents d hd).imp_right (hnew d)⟩

theorem marked_addDependents (e : Entry) {rules : List RuleId} (h : ∀ d ∈ rules, new d) :
    e.Marked new again (e.addDependents rules) :=
  ⟨rfl, rfl, rfl, fun _ => rfl, fun h => h, .inl,
    fun d hd => (mem_addDependents hd).imp_right (h d)⟩

theorem marked_reentered (h : e.isFinal = false) (hagain : again) :
    e.Marked new again { e with state := .reentered } where
  found := rfl
  failure := rfl
  final := by rw [h]; rfl
  state hfinal := by rw [h] at hfinal; contradiction
  reentered _ := rfl
  growing _ := .inr hagain
  dependents _ hd := .inl hd

end Entry

namespace MemoTable

/-- The entries of a table are those of another one, marked. -/
def Marked (new : Nat → RuleId → RuleId → Prop) (again : Nat → RuleId → Prop) (m m' : MemoTable) :
    Prop :=
  ∀ p r, (m.get? p r = none → m'.get? p r = none) ∧
    ∀ e, m.get? p r = some e → ∃ e', m'.get? p r = some e' ∧ e.Marked (new p r) (again p r) e'

variable {new : Nat → RuleId → RuleId → Prop} {again : Nat → RuleId → Prop} {m m' m'' : MemoTable}

theorem Marked.of_get? (h : ∀ p r, m'.get? p r = m.get? p r) : m.Marked new again m' := by
  intro p r
  rw [h]
  exact ⟨fun hnone => hnone, fun e he => ⟨e, he, .refl e⟩⟩

theorem Marked.trans (h : m.Marked new again m') (h' : m'.Marked new again m'') :
    m.Marked new again m'' := by
  intro p r
  refine ⟨fun hnone => (h' p r).1 ((h p r).1 hnone), fun e he => ?_⟩
  obtain ⟨e', he', hmark⟩ := (h p r).2 e he
  obtain ⟨e'', he'', hmark'⟩ := (h' p r).2 e' he'
  exact ⟨e'', he'', hmark.trans hmark'⟩

theorem Marked.exists_of_get? (h : m.Marked new again m') {p : Nat} {r : RuleId} {e' : Entry}
    (he' : m'.get? p r = some e') :
    ∃ e, m.get? p r = some e ∧ e.Marked (new p r) (again p r) e' := by
  cases he : m.get? p r with
  | none => cases he'.symm.trans ((h p r).1 he)
  | some e =>
      obtain ⟨e'', he'', hmark⟩ := (h p r).2 e he
      cases he'.symm.trans he''
      exact ⟨e, rfl, hmark⟩

theorem marked_update {p : Nat} {r : RuleId} {f : Entry → Entry}
    (hf : ∀ e, m.get? p r = some e → e.Marked (new p r) (again p r) (f e)) :
    m.Marked new again (m.update p r f) := by
  intro p' r'
  rw [get?_update]
  split
  · rename_i hsite
    obtain ⟨rfl, rfl⟩ := hsite
    refine ⟨fun hnone => by rw [hnone]; rfl, fun e he => ⟨f e, by rw [he]; rfl, hf e he⟩⟩
  · exact ⟨fun hnone => hnone, fun e he => ⟨e, he, .refl e⟩⟩

@[simp] theorem get?_insert_self (m : MemoTable) (p : Nat) (r : RuleId) (e : Entry) :
    (m.insert p r e).get? p r = some e := by
  rw [get?_insert, if_pos ⟨rfl, rfl⟩]

theorem eq_or_of_get?_insert {m : MemoTable} {p p' : Nat} {r r' : RuleId} {entry e : Entry}
    (h : (m.insert p r entry).get? p' r' = some e) :
    (p' = p ∧ r' = r ∧ e = entry) ∨ (¬ (r' = r ∧ p' = p) ∧ m.get? p' r' = some e) := by
  rw [get?_insert] at h
  split at h
  · rename_i hsite
    obtain ⟨rfl, rfl⟩ := hsite
    cases h
    exact .inl ⟨rfl, rfl, rfl⟩
  · rename_i hsite
    exact .inr ⟨fun ⟨hr, hp⟩ => hsite ⟨hp.symm, hr.symm⟩, h⟩

theorem get?_insert_of_ne {m : MemoTable} {p p' : Nat} {r r' : RuleId} {entry : Entry}
    (h : ¬ (r' = r ∧ p' = p)) : (m.insert p r entry).get? p' r' = m.get? p' r' := by
  rw [get?_insert, if_neg]
  rintro ⟨rfl, rfl⟩
  exact h ⟨rfl, rfl⟩

theorem get?_removeAll (m : MemoTable) (p p' : Nat) (r : RuleId) (rules : List RuleId) :
    (rules.foldl (fun memo d => memo.remove p d) m).get? p' r =
      if p = p' ∧ r ∈ rules then none else m.get? p' r := by
  induction rules generalizing m with
  | nil => simp
  | cons d rules ih =>
      rw [List.foldl_cons, ih, get?_remove]
      by_cases hp : p = p' <;> by_cases hd : r = d <;> by_cases hr : r ∈ rules <;>
        simp [hp, hd, hr, eq_comm]

@[simp] theorem get?_lookup (m : MemoTable) (p : Nat) (r : RuleId) (p' : Nat) (r' : RuleId) :
    (m.lookup p r).2.get? p' r' = m.get? p' r' := by
  rw [lookup]
  split <;> rfl

@[simp] theorem lookup_fst (m : MemoTable) (p : Nat) (r : RuleId) :
    (m.lookup p r).1 = m.get? p r := by
  rw [lookup]
  cases m.get? p r <;> rfl

end MemoTable

/-- What holds of a session inside the applications `active`. -/
structure Kept {ω : Type} (L : Ledger ω) (g : Grammar) (length : Nat) (active : List Call)
    (s : Session ω) : Prop where
  nodup : active.Nodup
  /-- The newest application comes first. -/
  ascending : active.Pairwise fun c d => d.position ≤ c.position
  inRange : ∀ {r p e}, s.memo.get? p r = some e → r < g.rules.size ∧ p ≤ length
  inProgress : ∀ r p, ⟨r, p⟩ ∈ active ↔ ∃ e, s.memo.get? p r = some e ∧ e.isFinal = false
  settled : ∀ {r p e}, s.memo.get? p r = some e → e.isFinal = true →
    e.Settled ∧ L.Final r p e.found?
  seeds : ∀ {r p e}, s.memo.get? p r = some e → e.isFinal = false → L.Seed r p e.found?
  met : ∀ {r p e}, s.memo.get? p r = some e → e.isFinal = false → e.isGrowing = true → L.Met r p
  /-- What depends on a rule in progress was applied inside of it. -/
  dependents : ∀ (above : List Call) {below : List Call} {c : Call} {e : Entry},
    active = above ++ c :: below → s.memo.get? c.position c.rule = some e →
      ∀ d ∈ e.dependents, ⟨d, c.position⟩ ∉ c :: below
  log : L.Log s.log

/-- The entries of the applications in progress are there and have the seeds they had. -/
def Framed {ω : Type} (active : List Call) (s s' : Session ω) : Prop :=
  ∀ c ∈ active, ∀ e, s.memo.get? c.position c.rule = some e →
    ∃ e', s'.memo.get? c.position c.rule = some e' ∧ e'.found? = e.found? ∧
      (e.state = .reentered → e'.state = .reentered)

section Sessions

variable {ω : Type} {L : Ledger ω} {g : Grammar} {length : Nat} {active : List Call}
  {s s' s'' : Session ω} {r : RuleId} {p : Nat}

theorem Framed.refl (s : Session ω) : Framed active s s :=
  fun _ _ e he => ⟨e, he, rfl, fun h => h⟩

theorem Framed.trans (h : Framed active s s') (h' : Framed active s' s'') :
    Framed active s s'' := by
  intro c hc e he
  obtain ⟨e', he', hfound, hre⟩ := h c hc e he
  obtain ⟨e'', he'', hfound', hre'⟩ := h' c hc e' he'
  exact ⟨e'', he'', hfound'.trans hfound, fun h => hre' (hre h)⟩

theorem Framed.sublist {active' : List Call} (h : Framed active s s')
    (hsub : ∀ c ∈ active', c ∈ active) : Framed active' s s' :=
  fun c hc => h c (hsub c hc)

/-- Where the entries are the same the applications in progress see no difference. -/
theorem Framed.of_get? (h : ∀ c ∈ active, s'.memo.get? c.position c.rule =
    s.memo.get? c.position c.rule) : Framed active s s' :=
  fun c hc e he => ⟨e, (h c hc).trans he, rfl, fun h => h⟩

theorem framed_insert (hfresh : ⟨r, p⟩ ∉ active) (entry : Entry) :
    Framed active s { s with memo := s.memo.insert p r entry } := by
  refine .of_get? fun c hc => MemoTable.get?_insert_of_ne ?_
  rintro ⟨rfl, rfl⟩
  exact hfresh hc

/-- Marking entries keeps all of it, if a rule comes to depend only on rules it was applied inside
of. -/
theorem Kept.marked (h : Kept L g length active s) (new : Nat → RuleId → RuleId → Prop)
    (again : Nat → RuleId → Prop) (hmark : s.memo.Marked new again s'.memo)
    (hnew : ∀ {p r d above below}, new p r d → active = above ++ ⟨r, p⟩ :: below →
      ⟨d, p⟩ ∉ (⟨r, p⟩ : Call) :: below)
    (hagain : ∀ {p r}, again p r → L.Met r p) (hlog : L.Log s'.log) :
    Kept L g length active s' ∧ Framed active s s' := by
  constructor
  · refine ⟨h.nodup, h.ascending, fun he' => ?_, fun r p => ?_, fun he' hfinal => ?_,
      fun he' hfinal => ?_, fun he' hfinal hgrow => ?_, ?_, hlog⟩
    · obtain ⟨e, he, -⟩ := hmark.exists_of_get? he'
      exact h.inRange he
    · rw [h.inProgress]
      constructor
      · rintro ⟨e, he, hfinal⟩
        obtain ⟨e', he', hm⟩ := (hmark p r).2 e he
        exact ⟨e', he', hm.final.trans hfinal⟩
      · rintro ⟨e', he', hfinal⟩
        obtain ⟨e, he, hm⟩ := hmark.exists_of_get? he'
        exact ⟨e, he, hm.final.symm.trans hfinal⟩
    · obtain ⟨e, he, hm⟩ := hmark.exists_of_get? he'
      have hfinal' := hm.final.symm.trans hfinal
      obtain ⟨hsettled, hL⟩ := h.settled he hfinal'
      rw [Entry.Settled, hm.state hfinal', hm.found, hm.failure]
      exact ⟨hsettled, hL⟩
    · obtain ⟨e, he, hm⟩ := hmark.exists_of_get? he'
      rw [hm.found]
      exact h.seeds he (hm.final.symm.trans hfinal)
    · obtain ⟨e, he, hm⟩ := hmark.exists_of_get? he'
      exact (hm.growing hgrow).elim (h.met he (hm.final.symm.trans hfinal)) hagain
    · intro above below c e' hsplit he' d hd
      obtain ⟨e, he, hm⟩ := hmark.exists_of_get? he'
      rcases hm.dependents d hd with hd | hd
      · exact h.dependents above hsplit he d hd
      · exact hnew hd hsplit
  · intro c _ e he
    obtain ⟨e', he', hm⟩ := (hmark c.position c.rule).2 e he
    exact ⟨e', he', hm.found, hm.reentered⟩

/-- The counters of the table and the furthest failure do not matter, nor does a good log. -/
theorem Kept.of_get? (h : Kept L g length active s) (s' : Session ω)
    (hmemo : ∀ p r, s'.memo.get? p r = s.memo.get? p r) (hlog : L.Log s'.log) :
    Kept L g length active s' ∧ Framed active s s' :=
  h.marked (fun _ _ _ => False) (fun _ _ => False) (.of_get? hmemo) (fun hfalse => hfalse.elim)
    (fun hfalse => hfalse.elim) hlog

theorem length_calls_le {size length : Nat} {calls : List Call} (hnodup : calls.Nodup)
    (hrange : ∀ c ∈ calls, c.rule < size ∧ c.position ≤ length) :
    calls.length ≤ size * (length + 1) := by
  have hsub : calls ⊆ (List.range size).flatMap fun r =>
      (List.range (length + 1)).map fun p => (⟨r, p⟩ : Call) := by
    intro c hc
    obtain ⟨hr, hp⟩ := hrange c hc
    rw [List.mem_flatMap]
    refine ⟨c.rule, List.mem_range.2 hr, List.mem_map.2 ⟨c.position, ?_, rfl⟩⟩
    exact List.mem_range.2 (Nat.lt_succ_of_le hp)
  have hlength := (hnodup.subperm hsub).length_le
  simpa [List.length_flatMap] using hlength

theorem Kept.length_active_le (h : Kept L g length active s) :
    active.length ≤ g.rules.size * (length + 1) := by
  refine length_calls_le h.nodup fun c hc => ?_
  obtain ⟨e, he, -⟩ := (h.inProgress c.rule c.position).1 hc
  exact h.inRange he

/-! ### What the parser does to a session -/

theorem marked_enlist (s : Session ω) (active : List Call) (r : RuleId) (p : Nat) :
    s.memo.Marked (fun p' _ d => p' = p ∧ d = r) (fun _ _ => False) (s.enlist active r p).memo := by
  rw [Session.enlist]
  generalize active.takeWhile (fun c => c.position = p) = heads
  generalize s.memo = m
  dsimp only
  induction heads generalizing m with
  | nil => exact .of_get? fun _ _ => rfl
  | cons c heads ih =>
      refine MemoTable.Marked.trans (MemoTable.marked_update fun e _ => ?_) (ih _)
      split
      · exact e.marked_addDependents fun d hd => ⟨rfl, List.mem_singleton.1 hd⟩
      · exact .refl e

theorem Kept.notMem_of_get?_eq_none (h : Kept L g length active s)
    (hnone : s.memo.get? p r = none) : ⟨r, p⟩ ∉ active := by
  rw [h.inProgress, hnone]
  rintro ⟨e, he, -⟩
  contradiction

theorem Kept.enlist (h : Kept L g length active s) (hnone : s.memo.get? p r = none) :
    Kept L g length active (s.enlist active r p) ∧ Framed active s (s.enlist active r p) := by
  refine h.marked _ _ (marked_enlist s active r p) ?_ (fun hfalse => hfalse.elim) h.log
  rintro _ r' _ above below ⟨rfl, rfl⟩ hsplit hmem
  apply h.notMem_of_get?_eq_none hnone
  rw [hsplit]
  exact List.mem_append_right above hmem

/-- Meeting a rule in progress again marks its entry, and what was applied since then comes to
depend on it. -/
theorem marked_reenter {e : Entry} (hactive : ⟨r, p⟩ ∈ active) (he : s.memo.get? p r = some e)
    (hopen : e.isFinal = false) :
    s.memo.Marked (fun p' r' d => p = p' ∧ r = r' ∧ (⟨d, p⟩ : Call) ∈ active.takeWhile (· ≠ ⟨r, p⟩))
      (fun p' r' => p = p' ∧ r = r') (s.reenter active r p).memo := by
  rw [Session.reenter, if_pos hactive]
  refine MemoTable.Marked.trans (MemoTable.marked_update fun e' he' => ?_)
    (MemoTable.marked_update fun e' _ => e'.marked_addDependents fun d hd => ?_)
  · rw [he] at he'
    cases he'
    exact Entry.marked_reentered hopen ⟨rfl, rfl⟩
  · obtain ⟨⟨d, q⟩, hc, rfl⟩ := List.mem_map.1 hd
    obtain ⟨hc, hp⟩ := List.mem_filter.1 hc
    simp only [Bool.and_eq_true, decide_eq_true_eq] at hp
    obtain ⟨rfl, -⟩ := hp
    exact ⟨rfl, rfl, List.mem_reverse.1 hc⟩

theorem get?_reenter_self {e : Entry} (hactive : ⟨r, p⟩ ∈ active) (he : s.memo.get? p r = some e) :
    ∃ e', (s.reenter active r p).memo.get? p r = some e' ∧ e'.found? = e.found? ∧
      e'.state = .reentered := by
  rw [Session.reenter, if_pos hactive]
  simp only [MemoTable.get?_update, he, and_self, if_true, Option.map_some, Option.some.injEq,
    exists_eq_left']
  exact ⟨rfl, rfl⟩

theorem Kept.reenter (h : Kept L g length active s) (hactive : ⟨r, p⟩ ∈ active) (hmet : L.Met r p) :
    Kept L g length active (s.reenter active r p) ∧ Framed active s (s.reenter active r p) ∧
      ∀ e, s.memo.get? p r = some e → ∃ e', (s.reenter active r p).memo.get? p r = some e' ∧
        e'.found? = e.found? ∧ e'.state = .reentered := by
  obtain ⟨e, he, hfinal⟩ := (h.inProgress r p).1 hactive
  have hkept : Kept L g length active (s.reenter active r p) ∧
      Framed active s (s.reenter active r p) := by
    refine h.marked _ _ (marked_reenter hactive he hfinal) ?_ ?_ ?_
    · rintro _ _ d above below ⟨rfl, rfl, hd⟩ hsplit hmem
      have hnodup := h.nodup
      rw [hsplit] at hnodup hd
      -- What stands before the first occurrence of a call stands before this one.
      have habove : (⟨d, p⟩ : Call) ∈ above := by
        have hne : ∀ c ∈ above, decide (c ≠ (⟨r, p⟩ : Call)) = true := by
          intro c hc
          rw [decide_eq_true_eq]
          rintro rfl
          exact (List.nodup_append.1 hnodup).2.2 _ hc _ List.mem_cons_self rfl
        rw [List.takeWhile_append_of_pos hne] at hd
        simpa using hd
      exact (List.nodup_append.1 hnodup).2.2 _ habove _ hmem rfl
    · rintro _ _ ⟨rfl, rfl⟩
      exact hmet
    · rw [Session.reenter, if_pos hactive]
      exact h.log
  exact ⟨hkept.1, hkept.2, fun e' he' => get?_reenter_self hactive he'⟩

/-- An entry is written. The rule is in progress afterwards if the entry is not final, all other
applications stay, and each of them is inside those that it was inside of. -/
theorem Kept.insert {active' : List Call} (h : Kept L g length active s) (entry : Entry)
    (hnodup : active'.Nodup) (hascending : active'.Pairwise fun c d => d.position ≤ c.position)
    (hrange : r < g.rules.size ∧ p ≤ length)
    (hself : ⟨r, p⟩ ∈ active' ↔ entry.isFinal = false)
    (hother : ∀ c, c ≠ ⟨r, p⟩ → (c ∈ active' ↔ c ∈ active))
    (hsettled : entry.isFinal = true → entry.Settled ∧ L.Final r p entry.found?)
    (hseed : entry.isFinal = false → L.Seed r p entry.found?)
    (hmet : entry.isFinal = false → entry.isGrowing = true → L.Met r p)
    (hdependents : ∀ above below, active' = above ++ ⟨r, p⟩ :: below →
      ∀ d ∈ entry.dependents, ⟨d, p⟩ ∉ (⟨r, p⟩ : Call) :: below)
    (hinside : ∀ above below c, c ≠ ⟨r, p⟩ → active' = above ++ c :: below →
      ∃ above', active = above' ++ c :: below) :
    Kept L g length active' { s with memo := s.memo.insert p r entry } := by
  refine ⟨hnodup, hascending, fun he => ?_, fun r' p' => ?_, fun he hfinal => ?_,
    fun he hfinal => ?_, fun he hfinal hgrow => ?_, fun above below c _ hsplit he => ?_, h.log⟩
  · rcases MemoTable.eq_or_of_get?_insert he with ⟨rfl, rfl, -⟩ | ⟨-, he⟩
    · exact hrange
    · exact h.inRange he
  · by_cases heq : r' = r ∧ p' = p
    · obtain ⟨rfl, rfl⟩ := heq
      simp [MemoTable.get?_insert_self, hself]
    · rw [MemoTable.get?_insert_of_ne heq, ← h.inProgress, hother]
      rwa [ne_eq, Call.mk.injEq]
  · rcases MemoTable.eq_or_of_get?_insert he with ⟨rfl, rfl, rfl⟩ | ⟨-, he⟩
    · exact hsettled hfinal
    · exact h.settled he hfinal
  · rcases MemoTable.eq_or_of_get?_insert he with ⟨rfl, rfl, rfl⟩ | ⟨-, he⟩
    · exact hseed hfinal
    · exact h.seeds he hfinal
  · rcases MemoTable.eq_or_of_get?_insert he with ⟨rfl, rfl, rfl⟩ | ⟨-, he⟩
    · exact hmet hfinal hgrow
    · exact h.met he hfinal hgrow
  · rcases MemoTable.eq_or_of_get?_insert he with ⟨rfl, rfl, rfl⟩ | ⟨hne, he⟩
    · exact hdependents above below hsplit
    · have hc : c ≠ ⟨r, p⟩ := by
        rintro rfl
        exact hne ⟨rfl, rfl⟩
      obtain ⟨above', hsplit'⟩ := hinside above below c hc hsplit
      exact h.dependents above' hsplit' he

theorem Kept.enter (h : Kept L g length active s) (hnone : s.memo.get? p r = none)
    (hr : r < g.rules.size) (hp : p ≤ length) (hbehind : ∀ c ∈ active, c.position ≤ p)
    (hseed : L.Seed r p none) :
    Kept L g length (⟨r, p⟩ :: active) { s with memo := s.memo.insert p r .inProgress } := by
  have hfresh := h.notMem_of_get?_eq_none hnone
  refine h.insert .inProgress (List.nodup_cons.2 ⟨hfresh, h.nodup⟩)
    (List.pairwise_cons.2 ⟨hbehind, h.ascending⟩) ⟨hr, hp⟩
    (iff_of_true List.mem_cons_self rfl) (fun c hc => ?_) nofun (fun _ => hseed) nofun nofun ?_
  · rw [List.mem_cons, or_iff_right hc]
  · intro above below c hc hsplit
    cases above with
    | nil =>
        rw [List.nil_append, List.cons.injEq] at hsplit
        exact absurd hsplit.1.symm hc
    | cons b above =>
        rw [List.cons_append, List.cons.injEq] at hsplit
        exact ⟨above, hsplit.2⟩

theorem Kept.finish {entry : Entry} (h : Kept L g length (⟨r, p⟩ :: active) s)
    (hentry : entry.Settled) (hfinal : L.Final r p entry.found?) :
    Kept L g length active { s with memo := s.memo.insert p r entry } := by
  obtain ⟨hfresh, hnodup⟩ := List.nodup_cons.1 h.nodup
  obtain ⟨old, hold, -⟩ := (h.inProgress r p).1 List.mem_cons_self
  have hopen : entry.isFinal ≠ false := by
    rw [hentry.isFinal]
    exact nofun
  refine h.insert entry hnodup (List.pairwise_cons.1 h.ascending).2 (h.inRange hold)
    (iff_of_false hfresh hopen) (fun c hc => ?_) (fun _ => ⟨hentry, hfinal⟩)
    (fun hfalse => absurd hfalse hopen) (fun hfalse => absurd hfalse hopen) ?_ ?_
  · rw [List.mem_cons, or_iff_right hc]
  · intro above below hsplit
    rw [hsplit] at hfresh
    exact absurd (List.mem_append_right above List.mem_cons_self) hfresh
  · intro above below c _ hsplit
    exact ⟨⟨r, p⟩ :: above, by rw [hsplit]; rfl⟩

theorem Kept.reseed {e : Entry} (h : Kept L g length active s) (entry : Entry)
    (hactive : ⟨r, p⟩ ∈ active) (he : s.memo.get? p r = some e) (hentry : entry.isFinal = false)
    (hdependents : entry.dependents = e.dependents) (hseed : L.Seed r p entry.found?)
    (hmet : L.Met r p) :
    Kept L g length active { s with memo := s.memo.insert p r entry } := by
  refine h.insert entry h.nodup h.ascending (h.inRange he) (iff_of_true hactive hentry)
    (fun _ _ => Iff.rfl) (fun hfinal => nomatch hentry.symm.trans hfinal) (fun _ => hseed)
    (fun _ _ => hmet) ?_ fun above _ _ _ hsplit => ⟨above, hsplit⟩
  intro above below hsplit
  rw [hdependents]
  exact h.dependents above hsplit he

theorem Kept.drop (h : Kept L g length active s) (hfresh : ⟨r, p⟩ ∉ active) :
    Kept L g length active { s with memo := s.memo.remove p r } := by
  have hget : ∀ {r' p' e}, (s.memo.remove p r).get? p' r' = some e →
      s.memo.get? p' r' = some e := by
    intro r' p' e he
    rw [MemoTable.get?_remove] at he
    split at he
    · contradiction
    · exact he
  refine ⟨h.nodup, h.ascending, fun he => h.inRange (hget he), fun r' p' => ?_,
    fun he => h.settled (hget he), fun he => h.seeds (hget he), fun he => h.met (hget he),
    fun above _ _ _ hsplit he => h.dependents above hsplit (hget he), h.log⟩
  rw [h.inProgress]
  constructor
  · rintro ⟨e, he, hfin⟩
    refine ⟨e, ?_, hfin⟩
    rw [MemoTable.get?_remove, if_neg, he]
    rintro ⟨rfl, rfl⟩
    exact hfresh ((h.inProgress r p).2 ⟨e, he, hfin⟩)
  · rintro ⟨e, he, hfin⟩
    exact ⟨e, hget he, hfin⟩

theorem Kept.dropAll (rules : List RuleId) (h : Kept L g length active s)
    (hfresh : ∀ d ∈ rules, ⟨d, p⟩ ∉ active) :
    Kept L g length active
        { s with memo := rules.foldl (fun memo d => memo.remove p d) s.memo } ∧
      ∀ c ∈ active, (rules.foldl (fun memo d => memo.remove p d) s.memo).get? c.position c.rule =
        s.memo.get? c.position c.rule := by
  induction rules generalizing s with
  | nil => exact ⟨h, fun _ _ => rfl⟩
  | cons d rules ih =>
      obtain ⟨hd, hrules⟩ := List.forall_mem_cons.1 hfresh
      obtain ⟨hkept, hget⟩ := ih (h.drop hd) hrules
      refine ⟨hkept, fun c hc => (hget c hc).trans ?_⟩
      rw [MemoTable.get?_remove, if_neg]
      rintro ⟨rfl, rfl⟩
      exact hd hc

end Sessions

end Seedling
