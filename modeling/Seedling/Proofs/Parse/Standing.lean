import Seedling.Proofs.Parse.Course

/-!
What stands in the memo table. The table that an evaluation leaves has every answer that was
given on the way, since entries last while something is evaluated; so under those answers an
expression means what it came to, and what is told of it was meant at the time. This needs
nothing of the grammar; it holds with left recursion, too.
-/

namespace Seedling

open Unlimited

/-- What a table has answered: its final entries, and those in progress that were met again. -/
def MemoTable.answers (m : MemoTable) : Answers := fun r p o =>
  ∃ e, m.get? p r = some e ∧ (e.isFinal = true ∨ e.state = .reentered) ∧ e.found? = o

theorem MemoTable.answers_unique {m : MemoTable} {r : RuleId} {p : Nat} {o o' : Option Found}
    (h : m.answers r p o) (h' : m.answers r p o') : o = o' := by
  obtain ⟨e, he, -, rfl⟩ := h
  obtain ⟨e', he', -, rfl⟩ := h'
  cases he.symm.trans he'
  rfl

theorem MemoTable.Lasts.answers {active : List Call} {m m' : MemoTable} (h : m.Lasts active m')
    (r : RuleId) (p : Nat) (o : Option Found) (ho : m.answers r p o) : m'.answers r p o := by
  obtain ⟨e, he, hasked, rfl⟩ := ho
  obtain ⟨e', he', hmarked⟩ := h p r e he
  exact ⟨e', he', hasked.imp (fun hfinal => hmarked.final.trans hfinal) hmarked.reentered,
    hmarked.found⟩

/-- An outcome is what an expression means, with trees and a splice from before. -/
def Form.ComesTo (g : Grammar) (subject : Subject) (A : Answers) (form : Form) (p : Nat)
    (out : Array ParseTree) (splice : Option Nat) (outcome : Outcome Matched) : Prop :=
  ∃ x, Meaning g subject A form p x ∧ outcome.result? = some (x.map fun x => x.onto out splice)

section Outcomes

variable {ω : Type} {g : Grammar} {subject : Subject} {A : Answers} {form : Form} {p : Nat}
  {out : Array ParseTree} {splice : Option Nat} {outcome : Outcome Matched}

theorem Form.ComesTo.of_meaning {form' : Form} (h : form.ComesTo g subject A p out splice outcome)
    (hmeaning : ∀ x, Meaning g subject A form p x → Meaning g subject A form' p x) :
    form'.ComesTo g subject A p out splice outcome := by
  obtain ⟨x, hx, hresult⟩ := h
  exact ⟨x, hmeaning x hx, hresult⟩

theorem Form.ComesTo.of_ok {m : Matched} (h : form.ComesTo g subject A p out splice (.ok m)) :
    ∃ x, Meaning g subject A form p (some x) ∧ m = x.onto out splice := by
  obtain ⟨x, hx, hresult⟩ := h
  obtain ⟨x, rfl, rfl⟩ := Option.map_eq_some_iff.1 (Option.some.inj hresult).symm
  exact ⟨x, hx, rfl⟩

theorem Form.ComesTo.of_backtrack {f : Failure}
    (h : form.ComesTo g subject A p out splice (.backtrack f)) :
    Meaning g subject A form p none := by
  obtain ⟨x, hx, hresult⟩ := h
  obtain rfl := Option.map_eq_none_iff.1 (Option.some.inj hresult).symm
  exact hx

theorem Form.comesTo_nothing (h : Meaning g subject A form p (some (.nothing p))) :
    form.ComesTo g subject A p out splice (.ok ⟨p, out, splice⟩) :=
  ⟨_, h, by rw [Option.map_some, Piece.nothing_onto, Outcome.result?]⟩

theorem Form.ComesTo.append {form' : Form} {x : Piece}
    (h : form'.ComesTo g subject A x.stop (x.onto out none).out ((x.onto out none).splice.or splice)
      outcome)
    (hmeaning : ∀ y, Meaning g subject A form' x.stop y →
    Meaning g subject A form p (y.map x.append)) :
    form.ComesTo g subject A p out splice outcome := by
  obtain ⟨y, hy, hresult⟩ := h
  refine ⟨_, hmeaning y hy, ?_⟩
  rw [hresult, Option.map_map]
  congr
  funext y
  exact (x.append_onto y out splice).symm

theorem result?_onMatch {α β : Type} (f : α → β) (result : Outcome α × Session ω) :
    (onMatch f result).1.result? = result.1.result?.map (Option.map f) := by
  obtain ⟨_ | _ | _, _⟩ := result <;> rfl

@[simp] theorem onMatch_snd {α β : Type} (f : α → β) (result : Outcome α × Session ω) :
    (onMatch f result).2 = result.2 := by
  obtain ⟨_ | _ | _, _⟩ := result <;> rfl

theorem Form.ComesTo.onMatch {form' : Form} {result : Outcome Matched × Session ω}
    {f : Matched → Matched} {f' : Piece → Piece} {out' : Array ParseTree}
    (h : form'.ComesTo g subject A p out' splice result.1)
    (hmeaning : ∀ x, Meaning g subject A form' p x → Meaning g subject A form p (x.map f'))
    (hf : ∀ x : Piece, f (x.onto out' splice) = (f' x).onto out splice) :
    form.ComesTo g subject A p out splice (onMatch f result).1 := by
  obtain ⟨x, hx, hresult⟩ := h
  have hcomp : (f ∘ fun x => x.onto out' splice) = (fun x => x.onto out splice) ∘ f' := funext hf
  refine ⟨_, hmeaning x hx, ?_⟩
  rw [result?_onMatch, hresult, Option.map_some, Option.map_map, Option.map_map, hcomp]

theorem terminal_comesTo (task : Task ω) {id : AtomId} {atom : Atom} (s : Session ω)
    (hmeaning : Meaning task.grammar task.subject A (.operator id atom) p
      ((task.subject.matchTerminal task.grammar id p).map fun m => .single m.1 m.2)) :
    (Form.operator id atom).ComesTo task.grammar task.subject A p out none
      (task.terminal id p out s).1 := by
  refine ⟨_, hmeaning, ?_⟩
  rw [Task.terminal]
  cases task.subject.matchTerminal task.grammar id p with
  | some m => simp [Outcome.result?, Piece.single, Piece.onto]
  | none => rfl

theorem terminal_snd (task : Task ω) (id : AtomId) (s : Session ω) :
    (task.terminal id p out s).2.memo = s.memo ∧ (task.terminal id p out s).2.log = s.log := by
  rw [Task.terminal]
  split <;> exact ⟨rfl, rfl⟩

theorem lookahead_comesTo {id a : AtomId} {positive : Bool} {result : Outcome Matched × Session ω}
    (s : Session ω) (h : (Form.atom a).ComesTo g subject A p #[] none result.1) :
    (Form.operator id (.lookahead a positive)).ComesTo g subject A p out none
      (Task.lookahead (fun _ _ _ _ => result) a positive p out s).1 := by
  obtain ⟨x, hx, hresult⟩ := h
  refine ⟨_, .lookahead hx, ?_⟩
  rw [lookahead_eq]
  obtain ⟨m | f | e, s'⟩ := result
  · obtain ⟨x, rfl, -⟩ := Option.map_eq_some_iff.1 (Option.some.inj hresult).symm
    cases positive <;> simp [proceed, Outcome.result?, Piece.nothing_onto]
  · obtain rfl := Option.map_eq_none_iff.1 (Option.some.inj hresult).symm
    cases positive <;> simp [proceed, Outcome.result?, Piece.nothing_onto]
  · contradiction

theorem lookahead_snd {a : AtomId} {positive : Bool} {result : Outcome Matched × Session ω}
    (s : Session ω) :
    (Task.lookahead (fun _ _ _ _ => result) a positive p out s).2.memo = result.2.memo ∧
      (Task.lookahead (fun _ _ _ _ => result) a positive p out s).2.log = result.2.log := by
  rw [lookahead_eq]
  obtain ⟨_ | _ | _, _⟩ := result <;> cases positive <;> exact ⟨rfl, rfl⟩

end Outcomes

/-- What is told of an evaluation is what the expressions mean: an alternative is tried where
those before it have failed, and how far it or an atom got is as it should be. Nothing is said
of rules. -/
def Event.Meant (g : Grammar) (subject : Subject) (A : Answers) : Event → Prop
  | .rule .. => True
  | .tries id index p => ∃ atoms, g.atoms[id]? = some (.choice atoms) ∧
      ∀ a ∈ atoms.take index, Meaning g subject A (.atom a) p none
  | .tried id index p stop => ∃ atoms, g.atoms[id]? = some (.choice atoms) ∧
      (∀ a ∈ atoms.take index, Meaning g subject A (.atom a) p none) ∧
      ∃ a x, atoms[index]? = some a ∧ Meaning g subject A (.atom a) p x ∧ stop = x.map Piece.stop
  | .atom id p stop => ∃ x, Meaning g subject A (.atom id) p x ∧ stop = x.map Piece.stop

namespace Unlimited

/-- What is left of a choice comes behind alternatives that have failed. -/
def Job.Placed (g : Grammar) (subject : Subject) (A : Answers) : {k : Kind} → Job k → Prop
  | _, .operator id a _ _ => g.atoms[id]? = some a
  | _, .alternatives id p _ index atoms _ =>
      ∃ passed, g.atoms[id]? = some (.choice (passed ++ atoms)) ∧
        passed.length = index ∧ ∀ a ∈ passed, Meaning g subject A (.atom a) p none
  | _, _ => True

/-- A job comes to what it means. -/
def Job.Means (g : Grammar) (subject : Subject) (A : Answers) :
    {k : Kind} → Job k → Outcome k.Match → Prop
  | _, .atom id p out => (Form.atom id).ComesTo g subject A p out none
  | _, .operator id a p out => (Form.operator id a).ComesTo g subject A p out none
  | _, .items atoms p out splice => (Form.items atoms).ComesTo g subject A p out splice
  | _, .alternatives _ p out _ atoms _ => (Form.alternatives atoms).ComesTo g subject A p out none
  | _, .run a min max count p out splice =>
      (Form.run a min max count).ComesTo g subject A p out splice
  | _, .body r p => fun outcome => ∃ o, Body g subject A r p o ∧ outcome.result? = some o
  | _, .growth r p => fun outcome => ∃ o, A r p o ∧ outcome.result? = some o
  | _, .application r p => fun outcome => ∃ o, A r p o ∧ outcome.result? = some o

variable {ω : Type} {task : Task ω} {active : List Call} {s : Session ω}

@[simp] theorem result?_seedOr (f : Failure) (e : Entry) :
    (Task.seedOr f e).result? = some e.found? := by
  rw [Task.seedOr]
  cases e.found? <;> rfl

theorem settled_means {Log : ω → Prop} {r : RuleId} {p : Nat} {e : Entry}
    {attempt : Outcome Found × Session ω} {outcome : Outcome Found} {s' : Session ω}
    {o : Option Found} (hround : RoundsTo task active r p e attempt (.done outcome s'))
    (hresult : attempt.1.result? = some o)
    (hlog : ∀ {active memo action},
    Log (task.observer.note active memo (.rule r p action) attempt.2.log)) :
    (∃ o, s'.memo.answers r p o ∧ outcome.result? = some o) ∧ Log s'.log := by
  have hput : ∀ (s : Session ω) {entry : Entry} (action : Action), entry.isFinal = true →
      (task.put active r p entry action s).memo.answers r p entry.found? :=
    fun s entry _ hfinal => ⟨entry, MemoTable.get?_insert_self _ p r entry, .inl hfinal, rfl⟩
  cases hround with
  | abort => contradiction
  | passed | outgrown | matched => exact ⟨⟨_, hput _ _ rfl, rfl⟩, hlog⟩
  | failed hnone => exact ⟨⟨_, hput _ _ rfl, congrArg some hnone.symm⟩, hlog⟩

theorem replay_means {Log : ω → Prop} {r : RuleId} {p : Nat} {e : Entry}
    (he : s.memo.get? p r = some e) (hanswer : canAnswer active r p e = true) (hs : s.memo.Coherent)
    (hlog : ∀ {memo action}, Log (task.observer.note active memo (.rule r p action) s.log)) :
    (∃ o, (task.replay active r p e s).2.memo.answers r p o ∧
        (task.replay active r p e s).1.result? = some o) ∧
      Log (task.replay active r p e s).2.log := by
  cases hstate : e.state with
  | matched | failed =>
      have hfinal : e.isFinal = true := by simp [Entry.isFinal, hstate]
      have hresult := (hs p r e he hfinal).replay_result? task active r p s
      simp only [Task.replay, hstate] at hresult ⊢
      exact ⟨⟨_, ⟨e, he, .inl hfinal, rfl⟩, hresult⟩, hlog⟩
  | inProgress | reentered | seeded =>
      rw [canAnswer, hstate] at hanswer
      obtain ⟨e', he', hfound, hre⟩ := get?_reenter_self (of_decide_eq_true hanswer) he
      simp only [Task.replay, hstate]
      refine ⟨⟨_, ⟨e', he', .inr hre, hfound⟩, result?_seedOr _ e⟩, ?_⟩
      rw [Session.note, Session.log_reenter]
      exact hlog

theorem noteAtom_means {Log : ω → Prop}
    (hnote : ∀ {active memo event log}, event.Meant task.grammar task.subject memo.answers →
      Log log → Log (task.observer.note active memo event log))
    {id : AtomId} {p : Nat} {out : Array ParseTree} {result : Outcome Matched × Session ω}
    (h : (Form.atom id).ComesTo task.grammar task.subject result.2.memo.answers p out none result.1)
    (hlog : Log result.2.log) :
    (Form.atom id).ComesTo task.grammar task.subject
        (task.noteAtom active id p result).2.memo.answers p out none
          (task.noteAtom active id p result).1 ∧
      Log (task.noteAtom active id p result).2.log := by
  obtain ⟨m | f | e, s'⟩ := result
  · obtain ⟨x, hx, rfl⟩ := h.of_ok
    exact ⟨h, hnote ⟨some x, hx, rfl⟩ hlog⟩
  · exact ⟨h, hnote ⟨none, h.of_backtrack, rfl⟩ hlog⟩
  · exact ⟨h, hlog⟩

namespace Job.Placed

variable {g : Grammar} {subject : Subject} {A A' : Answers} {id a : AtomId} {p index : Nat}
  {out : Array ParseTree} {rest : List AtomId} {failure failure' : Failure}

theorem mono (h : (Job.alternatives id p out index rest failure).Placed g subject A)
    (hA : ∀ r p o, A r p o → A' r p o) :
    (Job.alternatives id p out index rest failure).Placed g subject A' := by
  obtain ⟨passed, hatom, hindex, hpassed⟩ := h
  exact ⟨passed, hatom, hindex, fun a ha => (hpassed a ha).mono hA⟩

theorem tries (h : (Job.alternatives id p out index rest failure).Placed g subject A) :
    (Event.tries id index p).Meant g subject A := by
  obtain ⟨passed, hatom, rfl, hpassed⟩ := h
  refine ⟨_, hatom, ?_⟩
  rwa [List.take_left]

theorem tried {x : Option Piece}
    (h : (Job.alternatives id p out index (a :: rest) failure).Placed g subject A)
    (hx : Meaning g subject A (.atom a) p x) :
    (Event.tried id index p (x.map Piece.stop)).Meant g subject A := by
  obtain ⟨passed, hatom, rfl, hpassed⟩ := h
  refine ⟨_, hatom, ?_, a, x, ?_, hx, rfl⟩
  · rwa [List.take_left]
  · simp

theorem passed (h : (Job.alternatives id p out index (a :: rest) failure).Placed g subject A)
    (hx : Meaning g subject A (.atom a) p none) :
    (Job.alternatives id p out (index + 1) rest failure').Placed g subject A := by
  obtain ⟨passed, hatom, rfl, hpassed⟩ := h
  refine ⟨passed ++ [a], ?_, ?_, ?_⟩
  · rwa [List.append_assoc, List.singleton_append]
  · simp
  · rw [List.forall_mem_append, List.forall_mem_singleton]
    exact ⟨hpassed, hx⟩

end Job.Placed

/-- Evaluation comes to what is meant under the answers that the table has after it, and tells
only what is meant when it is told. -/
theorem Performs.means {Log : ω → Prop}
    (hnote : ∀ {active memo event log}, event.Meant task.grammar task.subject memo.answers →
      Log log → Log (task.observer.note active memo event log))
    {k : Kind} {job : Job k} {result : Outcome k.Match × Session ω}
    (h : Performs task active job s result)
    (hjob : job.Placed task.grammar task.subject s.memo.answers) (hs : s.memo.Coherent)
    (hlog : Log s.log) :
    job.Means task.grammar task.subject result.2.memo.answers result.1 ∧ Log result.2.log := by
  induction h with
  | atom hatom _ ih =>
      obtain ⟨hx, hlog⟩ := ih hatom hs hlog
      exact noteAtom_means hnote (hx.of_meaning fun _ => .atom hatom) hlog
  | rule _ ih =>
      obtain ⟨⟨o, ho, hresult⟩, hlog⟩ := ih trivial hs hlog
      rw [onMatch_snd]
      refine ⟨⟨_, .rule ho, ?_⟩, hlog⟩
      rw [result?_onMatch, hresult]
      cases o <;> simp [Piece.single, Piece.onto]
  | literal =>
      rw [(terminal_snd _ _ _).1, (terminal_snd _ _ _).2]
      exact ⟨terminal_comesTo task _ .literal, hlog⟩
  | pattern =>
      rw [(terminal_snd _ _ _).1, (terminal_snd _ _ _).2]
      exact ⟨terminal_comesTo task _ .pattern, hlog⟩
  | token =>
      rw [(terminal_snd _ _ _).1, (terminal_snd _ _ _).2]
      exact ⟨terminal_comesTo task _ .token, hlog⟩
  | sequence _ ih =>
      obtain ⟨hx, hlog⟩ := ih trivial hs hlog
      exact ⟨hx.of_meaning fun _ => .sequence, hlog⟩
  | choice _ ih =>
      obtain ⟨hx, hlog⟩ := ih ⟨[], hjob, rfl, List.forall_mem_nil _⟩ hs hlog
      exact ⟨hx.of_meaning fun _ => .choice, hlog⟩
  | repetition _ ih =>
      obtain ⟨hx, hlog⟩ := ih trivial hs hlog
      exact ⟨hx.of_meaning fun _ => .repetition, hlog⟩
  | lookahead _ ih =>
      obtain ⟨hx, hlog⟩ := ih trivial hs hlog
      rw [(lookahead_snd _).1, (lookahead_snd _).2]
      exact ⟨lookahead_comesTo _ hx, hlog⟩
  | discard _ ih =>
      obtain ⟨hx, hlog⟩ := ih trivial hs hlog
      rw [onMatch_snd]
      exact ⟨hx.onMatch (fun _ => .discard) fun x => (Piece.nothing_onto _ _ _).symm, hlog⟩
  | splice _ ih =>
      obtain ⟨hx, hlog⟩ := ih trivial hs hlog
      rw [onMatch_snd]
      refine ⟨hx.onMatch (fun _ => .splice) fun x => ?_, hlog⟩
      simp only [Piece.onto, Piece.spliced, Array.size_append, List.size_toArray,
        Nat.add_left_cancel_iff, Option.or_none]
      split <;> simp
  | done => exact ⟨Form.comesTo_nothing .done, hlog⟩
  | item hx h ihx ih =>
      obtain ⟨hmeans, hlog⟩ := ihx trivial hs hlog
      obtain ⟨x, hx', rfl⟩ := hmeans.of_ok
      obtain ⟨hrest, hlog⟩ := ih trivial (hx.coherent hs) hlog
      exact ⟨hrest.append fun _ => .item (hx'.mono h.lasts.answers), hlog⟩
  | broken _ ihx =>
      obtain ⟨hmeans, hlog⟩ := ihx trivial hs hlog
      exact ⟨⟨none, .broken hmeans.of_backtrack, rfl⟩, hlog⟩
  | exhausted => exact ⟨⟨none, .exhausted, rfl⟩, hlog⟩
  | taken hx ihx =>
      obtain ⟨hmeans, hlog⟩ := ihx trivial hs (hnote hjob.tries hlog)
      obtain ⟨x, hx', rfl⟩ := hmeans.of_ok
      exact ⟨⟨some x, .taken hx', rfl⟩, hnote ((hjob.mono hx.lasts.answers).tried hx') hlog⟩
  | passed hx h ihx ih =>
      obtain ⟨hmeans, hlog⟩ := ihx trivial hs (hnote hjob.tries hlog)
      have hx' := hmeans.of_backtrack
      have hplaced := hjob.mono hx.lasts.answers
      obtain ⟨hrest, hlog⟩ :=
        ih (hplaced.passed hx') (hx.coherent hs) (hnote (hplaced.tried hx') hlog)
      exact ⟨hrest.of_meaning fun _ => .passed (hx'.mono h.lasts.answers), hlog⟩
  | full hfull => exact ⟨Form.comesTo_nothing (.full hfull), hlog⟩
  | more hfull hx hlt h ihx ih =>
      obtain ⟨hmeans, hlog⟩ := ihx trivial hs hlog
      obtain ⟨x, hx', rfl⟩ := hmeans.of_ok
      obtain ⟨hrest, hlog⟩ := ih trivial (hx.coherent hs) hlog
      exact ⟨hrest.append fun _ => .more hfull (hx'.mono h.lasts.answers) hlt, hlog⟩
  | empty hfull _ hle ihx =>
      obtain ⟨hmeans, hlog⟩ := ihx trivial hs hlog
      obtain ⟨x, hx', rfl⟩ := hmeans.of_ok
      exact ⟨⟨_, .empty hfull hx' hle, by rw [Piece.onto_or]; rfl⟩, hlog⟩
  | enough hfull _ hcount ihx =>
      obtain ⟨hmeans, hlog⟩ := ihx trivial hs hlog
      exact ⟨Form.comesTo_nothing (.enough hfull hmeans.of_backtrack hcount), hlog⟩
  | tooFew hfull _ hcount ihx =>
      obtain ⟨hmeans, hlog⟩ := ihx trivial hs hlog
      exact ⟨⟨none, .tooFew hfull hmeans.of_backtrack hcount, rfl⟩, hlog⟩
  | body hrule _ ih =>
      obtain ⟨⟨x, hx, hresult⟩, hlog⟩ := ih trivial hs hlog
      rw [onMatch_snd]
      refine ⟨⟨_, ⟨_, hrule, x, hx, rfl⟩, ?_⟩, hlog⟩
      rw [result?_onMatch, hresult]
      cases x <;> simp [Piece.found, Piece.onto]
  | settled hx hentry hsettle ihx =>
      obtain ⟨⟨o, -, hresult⟩, hlog⟩ := ihx trivial hs hlog
      exact settled_means (Task.roundsTo_of_settle hentry hsettle) hresult (hnote trivial hlog)
  | grown hx hentry hsettle _ ihx ih =>
      obtain ⟨-, hlog⟩ := ihx trivial hs hlog
      cases Task.roundsTo_of_settle hentry hsettle with
      | grown => exact ih trivial (coherent_plant (hx.coherent hs) rfl) (hnote trivial hlog)
  | replayed hentry hanswer =>
      refine replay_means ?_ hanswer hs.lookup (hnote trivial hlog)
      rwa [MemoTable.get?_lookup]
  | entered hnone _ ih => exact ih trivial (coherent_entered _ _ _ _ hs.lookup) (hnote trivial hlog)

theorem Performs.body_means {r : RuleId} {p : Nat} {result : Outcome Found × Session ω}
    (h : Performs task active (.body r p) s result) (hs : s.memo.Coherent) :
    ∃ o, Body task.grammar task.subject result.2.memo.answers r p o ∧
      result.1.result? = some o := by
  have hmeans := @Performs.means ω task active s (fun _ => True)
    (fun _ _ => trivial) _ _ _ h trivial hs
  exact (hmeans trivial).1

end Unlimited

/-! ### Parses -/

section Attempts

variable {g : Grammar} {input : Input} {start : RuleId}

/-- What is seen is meant under the answers in sight. -/
def Sight.Meant (g : Grammar) (subject : Subject) (x : Sight) : Prop :=
  x.event.Meant g subject x.memo.answers

theorem attempt_meant (hg : g.WellFormed) (hstart : start < g.rules.size) (d : Nat) :
    ∀ x ∈ (attempt g input .sights [] start d).2.log, x.Meant g (.ofInput input) := by
  obtain ⟨d', hperforms, hgoes⟩ := exists_performs_attempt hg hstart .sights [] d
  let Log : List Sight → Prop := fun log => ∀ x ∈ log, x.Meant g (.ofInput input)
  have hnote : ∀ {active memo event log}, event.Meant g (.ofInput input) memo.answers → Log log →
      Log (Observer.sights.note active memo event log) :=
    fun hmeant hlog => List.forall_mem_cons.2 ⟨hmeant, hlog⟩
  have hempty : Log [] := List.forall_mem_nil _
  obtain ⟨-, hlog⟩ := hperforms.means hnote trivial MemoTable.coherent_empty hempty
  exact fun x hx => hlog x (hgoes.suffix.subset hx)

end Attempts

end Seedling
