import Seedling.Proofs.Parse.Depth

/-!
How often a repetition matches. Its matches are made one after the other, each where the one
before ends, until the maximum is reached, one is empty, or the next one fails. Only a failure
is held against the minimum: if the maximum is below it, the maximum is enough.

The loop is given as many rounds as there are positions left. That they do not run out rests on the
matches in the memo table, which have to lie inside the input, and in a parse they always do.
-/

namespace Seedling

open Unlimited

/-! ### The loop -/

section Loop

variable {ω : Type}

/-- Matches of an atom one after the other, from one place to another: how many, and whether the
last one is empty. -/
inductive Repeats (eval : Eval ω) (a : AtomId) (x : Matched × Session ω) :
    Nat → Bool → Matched × Session ω → Prop where
  | start : Repeats eval a x 0 false x
  | more {n m s m' s'} : Repeats eval a x n false (m, s) → eval a m.stop m.out s = (.ok m', s') →
      m.stop < m'.stop →
        Repeats eval a x (n + 1) false ({ m' with splice := m'.splice.or m.splice }, s')
  | empty {n m s m' s'} : Repeats eval a x n false (m, s) → eval a m.stop m.out s = (.ok m', s') →
      m'.stop = m.stop →
        Repeats eval a x (n + 1) true ({ m' with splice := m'.splice.or m.splice }, s')

/-- What a repetition comes to. -/
inductive Repeated (eval : Eval ω) (a : AtomId) (min : Nat) (max : Option Nat)
    (x : Matched × Session ω) :
    Outcome Matched × Session ω → Prop where
  | full {n m s} : Repeats eval a x n false (m, s) → max = some n →
      Repeated eval a min max x (.ok m, s)
  | empty {n m s} : Repeats eval a x n true (m, s) → (∀ k, max = some k → n ≤ k) →
      Repeated eval a min max x (.ok m, s)
  | enough {n m s f s'} : Repeats eval a x n false (m, s) → (∀ k, max = some k → n < k) →
      eval a m.stop m.out s = (.backtrack f, s') → min ≤ n → Repeated eval a min max x (.ok m, s')
  | tooFew {n m s f s'} : Repeats eval a x n false (m, s) → (∀ k, max = some k → n < k) →
      eval a m.stop m.out s = (.backtrack f, s') → n < min →
        Repeated eval a min max x (.backtrack f, s')
  | aborted {n m s e s'} : Repeats eval a x n false (m, s) → (∀ k, max = some k → n < k) →
      eval a m.stop m.out s = (.abort e, s') → Repeated eval a min max x (.abort e, s')

variable {eval : Eval ω} {a : AtomId} {x y y' : Matched × Session ω} {n n' : Nat} {e e' : Bool}

theorem Repeats.unique (h : Repeats eval a x n e y) (h' : Repeats eval a x n e' y') :
    e = e' ∧ y = y' := by
  induction h generalizing e' y' with
  | start =>
      cases h'
      exact ⟨rfl, rfl⟩
  | more _ heval hlt ih =>
      cases h' with
      | more h' heval' hlt' =>
          cases (ih h').2
          cases heval.symm.trans heval'
          exact ⟨rfl, rfl⟩
      | empty h' heval' hstop =>
          cases (ih h').2
          cases heval.symm.trans heval'
          omega
  | empty _ heval hstop ih =>
      cases h' with
      | more h' heval' hlt' =>
          cases (ih h').2
          cases heval.symm.trans heval'
          omega
      | empty h' heval' hstop =>
          cases (ih h').2
          cases heval.symm.trans heval'
          exact ⟨rfl, rfl⟩

/-- Only the last match is empty. -/
theorem Repeats.exists_of_lt (h : Repeats eval a x n e y) (hlt : n' < n) :
    ∃ y', Repeats eval a x n' false y' := by
  induction h with
  | start => exact absurd hlt (Nat.not_lt_zero _)
  | more h _ _ ih | empty h _ _ ih =>
      rcases Nat.lt_succ_iff_lt_or_eq.1 hlt with hlt | rfl
      · exact ih hlt
      · exact ⟨_, h⟩

theorem Repeats.le_of_stuck {m : Matched} {s : Session ω} (h : Repeats eval a x n false (m, s))
    (hstuck : ∀ m' s', eval a m.stop m.out s ≠ (.ok m', s'))
    (h' : Repeats eval a x n' e' y') : n' ≤ n := by
  induction h' with
  | start => exact Nat.zero_le _
  | more h' heval _ ih | empty h' heval _ ih =>
      rcases Nat.lt_or_eq_of_le ih with hlt | rfl
      · exact hlt
      · cases (h.unique h').2
        exact absurd heval (hstuck _ _)

namespace Repeated

variable {min : Nat} {max : Option Nat} {m : Matched} {s s' : Session ω}

theorem of_ok (h : Repeated eval a min max x (.ok m, s')) :
    ∃ n empty s, Repeats eval a x n empty (m, s) ∧ (∀ k, max = some k → n ≤ k) ∧
      (min ≤ n ∨ empty = true ∨ max = some n ∧ n < min) := by
  cases h with
  | @full n _ _ hrepeats hmax =>
      refine ⟨n, false, s', hrepeats, fun k hk => ?_, ?_⟩
      · cases hmax.symm.trans hk
        exact Nat.le_refl n
      · exact (Nat.lt_or_ge n min).elim (fun hlt => .inr (.inr ⟨hmax, hlt⟩)) .inl
  | empty hrepeats hmax => exact ⟨_, true, s', hrepeats, hmax, .inr (.inl rfl)⟩
  | enough hrepeats hmax _ hmin =>
      exact ⟨_, false, _, hrepeats, fun k hk => Nat.le_of_lt (hmax k hk), .inl hmin⟩

theorem of_backtrack {f : Failure} (h : Repeated eval a min max x (.backtrack f, s')) :
    ∃ n < min, ∀ n' empty y, Repeats eval a x n' empty y → n' ≤ n := by
  cases h with
  | tooFew hrepeats _ heval hmin =>
      exact ⟨_, hmin, fun n' empty y hrepeats' => hrepeats.le_of_stuck (by simp [heval]) hrepeats'⟩

/-- As many matches as there may be are enough, whatever the minimum. -/
theorem of_repeats {k : Nat} {result : Outcome Matched × Session ω}
    (h : Repeated eval a min max x result)
    (hk : max = some k) (hrepeats : Repeats eval a x k false (m, s)) : result.1 = .ok m := by
  have hmore : ∀ {n m s'}, Repeats eval a x n false (m, s') → (∀ k, max = some k → n < k) →
      ¬ ∀ m' s'', eval a m.stop m.out s' ≠ (.ok m', s'') := fun hrepeats' hmax hstuck =>
    absurd (hrepeats'.le_of_stuck hstuck hrepeats) (Nat.not_le.2 (hmax k hk))
  cases h with
  | full hrepeats' hmax =>
      cases hk.symm.trans hmax
      cases (hrepeats.unique hrepeats').2
      rfl
  | empty hrepeats' hmax =>
      rcases Nat.lt_or_eq_of_le (hmax k hk) with hlt | rfl
      · obtain ⟨y, hrepeats⟩ := hrepeats.exists_of_lt hlt
        cases (hrepeats.unique hrepeats').1
      · cases (hrepeats.unique hrepeats').1
  | enough hrepeats' hmax heval | tooFew hrepeats' hmax heval | aborted hrepeats' hmax heval =>
      exact absurd (by simp [heval]) (hmore hrepeats' hmax)

end Repeated

theorem isFull_iff {max : Option Nat} {count : Nat} :
    isFull max count = true ↔ ∃ k, max = some k ∧ k ≤ count := by
  cases max <;> simp [isFull]

/-- The loop comes to what a repetition does, if no match goes back or beyond the end. -/
theorem repetition_repeated {length min : Nat} {max : Option Nat} {Inv : Session ω → Prop}
    (heval : ∀ p out s m s', p ≤ length → Inv s → eval a p out s = (.ok m, s') →
      p ≤ m.stop ∧ m.stop ≤ length ∧ Inv s')
    {rounds count : Nat} {m : Matched} {s : Session ω}
    (hrepeats : Repeats eval a x count false (m, s))
    (hcount : ∀ k, max = some k → count ≤ k) (hm : m.stop ≤ length) (hs : Inv s)
    (hrounds : length - m.stop < rounds) :
    Repeated eval a min max x
      (Task.repetition eval a min max rounds count m.stop m.out m.splice s) := by
  induction rounds generalizing count m s with
  | zero => omega
  | succ rounds ih =>
      rw [Task.repetition, ← isFull]
      by_cases hfull : isFull max count = true
      · rw [if_pos hfull]
        obtain ⟨k, hk, hle⟩ := isFull_iff.1 hfull
        exact .full hrepeats (hk.trans (congrArg some (Nat.le_antisymm hle (hcount k hk))))
      rw [if_neg hfull]
      have hless : ∀ k, max = some k → count < k := fun k hk =>
        Nat.lt_of_not_le fun hle => hfull (isFull_iff.2 ⟨k, hk, hle⟩)
      rcases hresult : eval a m.stop m.out s with ⟨m' | f | e, s'⟩ <;> dsimp only
      · obtain ⟨hle, hlen, hs'⟩ := heval _ _ _ _ _ hm hs hresult
        split
        · rename_i hlt
          exact ih (.more hrepeats hresult hlt) hless hlen hs' (by dsimp only; omega)
        · rename_i hlt
          exact .empty (.empty hrepeats hresult (Nat.le_antisymm (Nat.le_of_not_lt hlt) hle)) hless
      · split
        · rename_i hfew
          exact .tooFew hrepeats hless hresult hfew
        · rename_i hfew
          exact .enough hrepeats hless hresult (Nat.le_of_not_lt hfew)
      · exact .aborted hrepeats hless hresult

end Loop

/-! ### Matches inside the input -/

/-- Answers that do not go back or beyond the end. -/
def answersInside (length : Nat) : Answers := fun _ p o =>
  ∀ f, o = some f → p ≤ length → p ≤ f.stop ∧ f.stop ≤ length

theorem answersInside_bounded (length : Nat) : (answersInside length).Bounded length :=
  fun _ _ f hq h => h f rfl hq

theorem answersInside_none {length p : Nat} {r : RuleId} : answersInside length r p none := by
  intro f hf
  contradiction

def MemoTable.Inside (length : Nat) (m : MemoTable) : Prop :=
  ∀ p r e, m.get? p r = some e → answersInside length r p e.found?

namespace MemoTable.Inside

variable {length p : Nat} {r : RuleId} {m m' : MemoTable}

theorem of_get? (h : m.Inside length) (hget : ∀ p r, m'.get? p r = m.get? p r) : m'.Inside length :=
  fun p r e he => h p r e ((hget p r).symm.trans he)

theorem marked {new : Nat → RuleId → RuleId → Prop} {again : Nat → RuleId → Prop}
    (h : m.Inside length) (hmarked : m.Marked new again m') : m'.Inside length := by
  intro p r e' he'
  obtain ⟨e, he, hmark⟩ := hmarked.exists_of_get? he'
  rw [hmark.found]
  exact h p r e he

theorem insert (h : m.Inside length) {entry : Entry}
    (hentry : answersInside length r p entry.found?) : (m.insert p r entry).Inside length := by
  intro p' r' e he
  rcases eq_or_of_get?_insert he with ⟨rfl, rfl, rfl⟩ | ⟨-, he⟩
  · exact hentry
  · exact h p' r' e he

theorem update (h : m.Inside length) {f : Entry → Entry} (hf : ∀ e, (f e).found? = e.found?) :
    (m.update p r f).Inside length := by
  intro p' r' e' he'
  rw [get?_update] at he'
  split at he'
  · obtain ⟨e, he, rfl⟩ := Option.map_eq_some_iff.1 he'
    rw [hf]
    exact h p' r' e he
  · exact h p' r' e' he'

theorem removeAll (h : m.Inside length) (rules : List RuleId) :
    (rules.foldl (fun memo d => memo.remove p d) m).Inside length := by
  intro p' r' e he
  rw [get?_removeAll] at he
  split at he
  · contradiction
  · exact h p' r' e he

end MemoTable.Inside

theorem MemoTable.inside_empty (length : Nat) : empty.Inside length := by
  intro p r e he
  rw [get?_empty] at he
  contradiction

section Applications

variable {ω : Type} {task : Task ω} {Log : ω → Prop} {active : List Call} {r : RuleId} {p : Nat}
  {s : Session ω}

/-- A session whose matches lie inside the input, as did those that have been written down. -/
structure Session.Inside (Log : ω → Prop) (length : Nat) (s : Session ω) : Prop where
  memo : s.memo.Inside length
  log : Log s.log

/-- An observer writes down what it sees of tables whose matches lie inside the input. -/
def Task.Notes (task : Task ω) (Log : ω → Prop) : Prop :=
  ∀ active memo event log, MemoTable.Inside task.subject.length memo → Log log →
    Log (task.observer.note active memo event log)

def StaysInside (task : Task ω) (Log : ω → Prop) (r : RuleId) (p : Nat) :
    Outcome Found × Session ω → Prop :=
  Meets (Session.Inside Log task.subject.length) fun o s =>
    s.Inside Log task.subject.length ∧ answersInside task.subject.length r p o

def insideContract (hnotes : task.Notes Log) (active : List Call) : Contract task active where
  Inv := Session.Inside Log task.subject.length
  Le _ _ := True
  answers _ := answersInside task.subject.length
  Abort := Session.Inside Log task.subject.length
  refl _ := trivial
  trans _ _ := trivial
  mono _ h := h
  bounded _ := answersInside_bounded _
  note _ h := ⟨⟨h.memo, hnotes _ _ _ _ h.memo h.log⟩, trivial⟩
  furthest _ h := ⟨⟨h.memo, h.log⟩, trivial⟩

theorem put_inside (hnotes : task.Notes Log) (hs : s.Inside Log task.subject.length)
    (active : List Call) {entry : Entry} (action : Action)
    (hentry : answersInside task.subject.length r p entry.found?) :
    (task.put active r p entry action s).Inside Log task.subject.length :=
  ⟨hs.memo.insert hentry, hnotes _ _ _ _ (hs.memo.insert hentry) hs.log⟩

theorem settle_inside (hnotes : task.Notes Log) {attempt : Outcome Found × Session ω}
    (h : StaysInside task Log r p attempt) :
    (∀ outcome s', task.settle active r p attempt = .done outcome s' →
        StaysInside task Log r p (outcome, s')) ∧
      ∀ s', task.settle active r p attempt = .again s' → s'.Inside Log task.subject.length := by
  obtain ⟨outcome₁, s₁⟩ := attempt
  have hs₁ : s₁.Inside Log task.subject.length := h.session (fun _ _ h => h.1) fun _ h => h
  cases he : s₁.memo.get? p r with
  | none =>
      simp only [Task.settle, he]
      exact ⟨by rintro _ _ ⟨⟩; exact h, by rintro _ ⟨⟩⟩
  | some e =>
      have hseed := hs₁.memo p r e he
      constructor
      · intro outcome s' hsettle
        cases Task.roundsTo_of_settle he hsettle with
        | abort => exact h
        | passed hfound | outgrown hfound =>
            rw [hfound] at hseed
            exact ⟨put_inside hnotes hs₁ _ _ hseed, hseed⟩
        | failed hnone => exact ⟨put_inside hnotes hs₁ _ _ hseed, answersInside_none⟩
        | matched => exact ⟨put_inside hnotes hs₁ _ _ h.2, h.2⟩
      · intro s' hsettle
        cases Task.roundsTo_of_settle he hsettle with
        | @grown found =>
            have hdropped : Session.Inside Log task.subject.length
                { s₁ with memo := e.dependents.foldl (fun memo d => memo.remove p d) s₁.memo } :=
              ⟨hs₁.memo.removeAll _, hs₁.log⟩
            have hfound : answersInside task.subject.length r p
                (e.store .seeded found).found? := h.2
            have hput := put_inside hnotes hdropped (⟨r, p⟩ :: active) (.grow found.stop) hfound
            exact ⟨hput.memo.insert h.2, hput.log⟩

theorem grow_inside (hnotes : task.Notes Log) {body : Session ω → Outcome Found × Session ω}
    (hbody : ∀ s, s.Inside Log task.subject.length → StaysInside task Log r p (body s))
    (rounds : Nat) (hs : s.Inside Log task.subject.length) :
    StaysInside task Log r p (task.grow active r p body rounds s) := by
  induction rounds generalizing s with
  | zero => exact ⟨hs, answersInside_none⟩
  | succ rounds ih =>
      obtain ⟨hdone, hagain⟩ := @settle_inside _ _ _ active _ _ hnotes _ (hbody s hs)
      rw [Task.grow]
      cases hsettle : task.settle active r p (body s) with
      | done outcome s' => exact hdone outcome s' hsettle
      | again s' => exact ih (hagain s' hsettle)

theorem Body.inside (hg : task.grammar.WellFormed) {input : Input}
    (hsubject : task.subject = .ofInput input) (hp : p ≤ task.subject.length) {o : Option Found}
    (h : Body task.grammar task.subject (answersInside task.subject.length) r p o) :
    answersInside task.subject.length r p o := by
  rw [hsubject, Subject.length_ofInput] at h hp ⊢
  obtain ⟨rule, -, x, hx, rfl⟩ := h
  intro f hf _
  obtain ⟨x, rfl, rfl⟩ := Option.map_eq_some_iff.1 hf
  exact hx.bounds hg (answersInside_bounded _) x rfl hp

theorem Visits.inside (hg : task.grammar.WellFormed) {input : Input}
    (hsubject : task.subject = .ofInput input) {a : AtomId} (ha : a < task.grammar.atoms.size)
    (hp : p ≤ task.subject.length) {q : Nat}
    (h : Visits task.grammar task.subject (answersInside task.subject.length) (.atom a) p r q) :
    r < task.grammar.rules.size ∧ q ≤ task.subject.length := by
  rw [hsubject, Subject.length_ofInput] at h hp ⊢
  exact ⟨h.region (show hg.region.Has (.atom a) from ha),
    (h.bounds hg (answersInside_bounded _) hp).2⟩

theorem replay_inside (hnotes : task.Notes Log) (hs : s.Inside Log task.subject.length) {e : Entry}
    (he : s.memo.get? p r = some e) : StaysInside task Log r p (task.replay active r p e s) := by
  have hseed : ∀ {s' : Session ω}, s'.Inside Log task.subject.length →
      StaysInside task Log r p (Task.seedOr (.here p) e, s') := by
    intro s' hs'
    have hfound := hs.memo p r e he
    rw [Task.seedOr]
    cases hresult : e.found? with
    | some f =>
        rw [hresult] at hfound
        exact ⟨hs', hfound⟩
    | none => exact ⟨hs', answersInside_none⟩
  unfold Task.replay
  split
  · exact hseed ⟨hs.memo, hnotes _ _ _ _ hs.memo hs.log⟩
  · exact ⟨⟨hs.memo, hnotes _ _ _ _ hs.memo hs.log⟩, answersInside_none⟩
  · have hreenter : (s.reenter active r p).memo.Inside task.subject.length := by
      rw [Session.reenter]
      split
      · refine MemoTable.Inside.update (MemoTable.Inside.update hs.memo ?_) ?_ <;> intro _ <;> rfl
      · refine MemoTable.Inside.update hs.memo ?_
        intro _
        rfl
    refine hseed ⟨hreenter, ?_⟩
    rw [Session.note, Session.log_reenter]
    exact hnotes _ _ _ _ hreenter hs.log

theorem apply_inside (hnotes : task.Notes Log) (hg : task.grammar.WellFormed) {input : Input}
    (hsubject : task.subject = .ofInput input) {room : Nat} (hr : r < task.grammar.rules.size)
    (hp : p ≤ task.subject.length) (hs : s.Inside Log task.subject.length) :
    StaysInside task Log r p (task.apply room active r p s) := by
  induction room generalizing active r p s with
  | zero => exact ⟨rfl, hs⟩
  | succ room ih =>
      have hlook : Session.Inside Log task.subject.length
          { s with memo := (s.memo.lookup p r).2 } :=
        ⟨hs.memo.of_get? fun _ _ => MemoTable.get?_lookup .., hs.log⟩
      rw [Task.apply_succ]
      cases he : s.memo.get? p r with
      | some e => exact replay_inside hnotes hlook ((MemoTable.get?_lookup ..).trans he)
      | none =>
          have hentered :
              (task.entered active r p { s with memo := (s.memo.lookup p r).2 }).Inside Log
              task.subject.length := by
            have hmemo := (hlook.memo.marked (marked_enlist _ active r p)).insert (r := r) (p := p)
              (show answersInside _ r p Entry.inProgress.found? from answersInside_none)
            exact ⟨hmemo, hnotes _ _ _ _ hmemo hlook.log⟩
          refine grow_inside hnotes (fun s hs => ?_) _ hentered
          refine (Contract.body_meets (c := insideContract hnotes (⟨r, p⟩ :: active)) hg
            hsubject hr hp hs
            fun s' r' q _ hs' hv => ?_).imp fun o s' ⟨hs', _, hbody⟩ =>
              ⟨hs', hbody.inside hg hsubject hp⟩
          obtain ⟨rule, hrule, hv⟩ := hv
          obtain ⟨hr', hq⟩ := hv.inside hg hsubject (hg.body_lt hrule) hp
          exact (ih hr' hq hs').imp fun _ _ h => ⟨h.1, trivial, h.2⟩

theorem eval_inside (hnotes : task.Notes Log) (hg : task.grammar.WellFormed) {input : Input}
    (hsubject : task.subject = .ofInput input) {room bound : Nat} {a : AtomId} (ha : a < bound)
    (hbound : bound ≤ task.grammar.atoms.size) {out : Array ParseTree} {m : Matched}
    {s' : Session ω} (hp : p ≤ task.subject.length) (hs : s.Inside Log task.subject.length)
    (h : task.eval (task.apply room active) active bound a p out s = (.ok m, s')) :
    p ≤ m.stop ∧ m.stop ≤ task.subject.length ∧ s'.Inside Log task.subject.length := by
  have hsound := Contract.eval_sound (c := insideContract hnotes active) hg hsubject
    (task.apply room active) ha hbound p out s hp hs fun s' r q _ hs' hv => by
      obtain ⟨hr, hq⟩ := hv.inside hg hsubject (Nat.lt_of_lt_of_le ha hbound) hp
      exact (apply_inside hnotes hg hsubject hr hq hs').imp fun _ _ h => ⟨h.1, trivial, h.2⟩
  rw [h] at hsound
  obtain ⟨hs', -, x, hx, hm⟩ := hsound
  obtain ⟨x, rfl, rfl⟩ := Option.map_eq_some_iff.1 hm.symm
  obtain ⟨hle, hlen⟩ := Contract.stop_bounds hg hsubject hx hp
  exact ⟨hle, hlen, hs'⟩

end Applications

/-- The evaluation of atoms in the middle of a parse: inside the applications `active`, with
room for `room` more. -/
def evalInside {ω : Type} (g : Grammar) (input : Input) (observer : Observer ω) (room : Nat)
    (active : List Call) (bound : Nat) : Eval ω :=
  Task.eval ⟨g, .ofInput input, observer⟩
    (Task.apply ⟨g, .ofInput input, observer⟩ room active) active bound

@[simp] theorem fst_noteAtom {ω : Type} (task : Task ω) (active : List Call) (id : AtomId) (p : Nat)
    (result : Outcome Matched × Session ω) : (task.noteAtom active id p result).1 = result.1 := by
  obtain ⟨_ | _ | _, _⟩ := result <;> rfl

theorem evalInside_repeated {ω : Type} {g : Grammar} (hg : g.WellFormed) {input : Input}
    (observer : Observer ω) (room : Nat) (active : List Call) {id a : AtomId} {min : Nat}
    {max : Option Nat} (hatom : g.atoms[id]? = some (.repetition a min max)) {bound p : Nat}
    (hid : id ≤ bound) (hbound : bound ≤ g.atoms.size) (hp : p ≤ input.length)
    (out : Array ParseTree) {s : Session ω} (hs : s.memo.Inside input.length) :
    ∃ s', Repeated (evalInside g input observer room active bound) a min max (⟨p, out, none⟩, s)
      ((evalInside g input observer room active (bound + 1) id p out s).1, s') := by
  let task : Task ω := ⟨g, .ofInput input, observer⟩
  have hnotes : task.Notes fun _ => True := fun _ _ _ _ _ _ => trivial
  have ha : a < bound := Nat.lt_of_lt_of_le (hg.child_lt hatom a List.mem_cons_self) hid
  rw [← Subject.length_ofInput] at hp hs
  have hrepeated : Repeated (evalInside g input observer room active bound) a min max
      (⟨p, out, none⟩, s)
      (task.operator (task.apply room active)
        (evalInside g input observer room active bound) active id
        (.repetition a min max) p out s) :=
    repetition_repeated
      (fun _ _ _ _ _ hp hs h => eval_inside hnotes hg rfl ha hbound hp hs h) .start
      (fun _ _ => Nat.zero_le _) hp ⟨hs, trivial⟩ (Nat.lt_succ_self _)
  have hnoted : evalInside g input observer room active (bound + 1) id p out s =
      task.noteAtom active id p
      (task.operator (task.apply room active)
        (evalInside g input observer room active bound) active id
        (.repetition a min max) p out s) := by
    rw [evalInside, Task.eval, hatom]
    rfl
  rw [hnoted, fst_noteAtom]
  exact ⟨_, hrepeated⟩

/-- The matches in a table that is seen in a parse lie inside the input. -/
theorem attempt_inside {g : Grammar} (hg : g.WellFormed) {input : Input} {start : RuleId}
    (hstart : start < g.rules.size) (d : Nat) :
    ∀ x ∈ (attempt g input .sights [] start d).2.log, x.memo.Inside input.length := by
  let task : Task (List Sight) := ⟨g, .ofInput input, .sights⟩
  let Log : List Sight → Prop := fun log => ∀ x ∈ log, x.memo.Inside task.subject.length
  have hnotes : task.Notes Log := fun _ _ _ _ hmemo hlog => List.forall_mem_cons.2 ⟨hmemo, hlog⟩
  have hempty : Log [] := List.forall_mem_nil _
  have hinside : StaysInside task Log start 0 (attempt g input .sights [] start d) :=
    apply_inside hnotes hg rfl hstart (Nat.zero_le _) ⟨MemoTable.inside_empty _, hempty⟩
  rw [← Subject.length_ofInput]
  exact (hinside.session (fun _ _ h => h.1) fun _ h => h).log

namespace Parser

variable {parser : Parser} {input : Input}

/-- A repetition respects its bounds in whatever state of a parse, but for a minimum above the
maximum. If it succeeds, it made as many matches one after the other as the maximum allows at
most, and no fewer than the minimum unless the last one was empty or the maximum is below; and
where the maximum is below it does succeed with that many. If it fails, fewer than the minimum
were possible. -/
theorem repetition_respects_bounds {atoms : Array Atom} {rules : Array Rule} {root : RuleId}
    (hg : Grammar.ofParts atoms rules root = .ok parser.grammar) {id a : AtomId} {min : Nat}
    {max : Option Nat} (hatom : parser.grammar.atoms[id]? = some (.repetition a min max)) :
    (∀ {ω : Type} (observer : Observer ω) (room : Nat) (active : List Call) (bound p : Nat)
        (out : Array ParseTree) (s : Session ω), id ≤ bound → bound ≤ parser.grammar.atoms.size →
        p ≤ input.length → s.memo.Inside input.length →
      (∀ m s', evalInside parser.grammar input observer room active
        (bound + 1) id p out s = (.ok m, s') →
        ∃ n empty s₀, Repeats (evalInside parser.grammar input observer room active bound) a
            (⟨p, out, none⟩, s) n empty (m, s₀) ∧ (∀ k, max = some k → n ≤ k) ∧
          (min ≤ n ∨ empty = true ∨ max = some n ∧ n < min)) ∧
      (∀ k m s₀, max = some k →
        Repeats (evalInside parser.grammar input observer room active bound) a
          (⟨p, out, none⟩, s) k false (m, s₀) →
        (evalInside parser.grammar input observer room active (bound + 1) id p out s).1 = .ok m) ∧
      ∀ f s', evalInside parser.grammar input observer room active (bound + 1) id p out s =
          (.backtrack f, s') →
        ∃ n < min, ∀ n' empty y,
          Repeats (evalInside parser.grammar input observer room active bound) a
          (⟨p, out, none⟩, s) n' empty y → n' ≤ n) ∧
      ∀ start < parser.grammar.rules.size, ∀ x ∈ (parser.run .sights [] start input).2.1,
        x.memo.Inside input.length := by
  obtain ⟨hwf, -⟩ := Grammar.ofParts_eq_ok hg
  refine ⟨fun {ω} observer room active bound p out s hid hbound hp hs => ?_, fun start hstart => ?_⟩
  · obtain ⟨s₁, hrepeated⟩ :=
      evalInside_repeated hwf observer room active hatom hid hbound hp out hs
    refine ⟨fun m s' h => ?_, fun k m s₀ => hrepeated.of_repeats, fun f s' h => ?_⟩
    · rw [h] at hrepeated
      exact hrepeated.of_ok
    · rw [h] at hrepeated
      exact hrepeated.of_backtrack
  · cases hrefusal : refusal parser.grammar parser.config input with
    | some e =>
        rw [run_refused hrefusal]
        exact List.forall_mem_nil _
    | none =>
        rw [run_eq_attempt hrefusal]
        exact attempt_inside hwf hstart _

/-- `s: !r 'a'` with `r: 'a'`, twice at least and once at most. -/
def scanty : Grammar where
  atoms := #[.literal "a", .repetition 0 2 (some 1), .lookahead 1 false, .sequence [2, 0]]
  rules := #[⟨"s", 3⟩]
  root := 0
  matchers := Array.replicate 4 none

theorem ofParts_scanty : Grammar.ofParts scanty.atoms scanty.rules 0 = .ok scanty := by
  with_unfolding_all rfl

/-- In `a` the repetition of `scanty` matches once where it should have matched twice, so that
the lookahead fails and with it the parse. -/
theorem matches_below_minimum_scanty :
    Grammar.ofParts scanty.atoms scanty.rules 0 = .ok scanty ∧
      (∃ x ∈ ((ofGrammar scanty {}).run .sights [] 0 (.text "a")).2.1,
        x.event = .atom 1 0 (some 1)) ∧
      ((ofGrammar scanty {}).run .sights [] 0 (.text "a")).1.toOption.isSome = false :=
  ⟨ofParts_scanty, by decide +kernel, by decide +kernel⟩

/-- `s: 'a'`, once at least and three times at most. -/
def sparing : Grammar where
  atoms := #[.literal "a", .repetition 0 1 (some 3)]
  rules := #[⟨"s", 1⟩]
  root := 0
  matchers := Array.replicate 2 none

theorem ofParts_sparing : Grammar.ofParts sparing.atoms sparing.rules 0 = .ok sparing := by
  with_unfolding_all rfl

/-- At the start of `aab` the repetition of `sparing` succeeds with one to three matches and
ends at the `b`. -/
theorem repetition_respects_bounds_sparing :
    ∃ m n empty s, m.stop = 2 ∧ Repeats (evalInside sparing (.text "aab") .silent 0 [] 1) 0
        (⟨0, #[], none⟩, ⟨.empty, .here 0, ()⟩) n empty (m, s) ∧
          (1 ≤ n ∨ empty = true) ∧ n ≤ 3 := by
  have hok : (evalInside sparing (.text "aab") .silent 0 [] 2 1 0 #[]
      ⟨.empty, .here 0, ()⟩).1.result?.map (Option.map Matched.stop) = some (some 2) := by
    decide +kernel
  rcases hresult : evalInside sparing (.text "aab") .silent 0 [] 2 1 0 #[]
    ⟨.empty, .here 0, ()⟩ with
    ⟨m | f | e, s'⟩ <;> rw [hresult] at hok
  · obtain ⟨n, empty, s, hrepeats, hmax, hmin⟩ :=
      ((@repetition_respects_bounds (ofGrammar sparing {})
        (.text "aab") _ _ _ ofParts_sparing 1 0 1 (some 3) rfl).1 .silent 0 [] 1 0 #[]
          ⟨.empty, .here 0, ()⟩
        (by decide) (by decide) (by decide) (MemoTable.inside_empty _)).1 m s' hresult
    have hle := hmax 3 rfl
    refine ⟨m, n, empty, s, Option.some.inj (Option.some.inj hok), hrepeats, ?_, hle⟩
    rcases hmin with hmin | hempty | ⟨hfull, hlt⟩
    · exact .inl hmin
    · exact .inr hempty
    · cases hfull
      exact absurd hlt (by decide)
  · cases hok
  · cases hok

end Parser

end Seedling
