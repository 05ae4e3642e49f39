import Seedling.Parse.Eval
import Seedling.Proofs.Parse.LeftEdge

/-!
Evaluation follows the meaning of expressions. A contract says what is kept of a session while a
body is evaluated and what the rules have answered so far; as long as every application that is
visited keeps to it, so does the evaluation, and its outcome is what the expression means under
those answers.
-/

namespace Seedling

/-- What an outcome comes to with the session after it: a match, a failure, or an end by a limit for
which there is a reason. -/
def Meets {α ω : Type} (abort : Session ω → Prop) (P : Option α → Session ω → Prop) :
    Outcome α × Session ω → Prop
  | (.ok a, s) => P (some a) s
  | (.backtrack _, s) => P none s
  | (.abort e, s) => e.isLimit = true ∧ abort s

theorem Meets.imp {α ω : Type} {abort : Session ω → Prop} {P Q : Option α → Session ω → Prop}
    {result : Outcome α × Session ω} (h : Meets abort P result) (hPQ : ∀ o s, P o s → Q o s) :
    Meets abort Q result := by
  obtain ⟨outcome, s⟩ := result
  cases outcome with
  | ok a => exact hPQ (some a) s h
  | backtrack f => exact hPQ none s h
  | abort e => exact h

theorem Meets.imp_abort {α ω : Type} {abort abort' : Session ω → Prop}
    {P : Option α → Session ω → Prop} {result : Outcome α × Session ω} (h : Meets abort P result)
    (habort : ∀ s, abort s → abort' s) : Meets abort' P result := by
  obtain ⟨outcome, s⟩ := result
  cases outcome with
  | ok a => exact h
  | backtrack f => exact h
  | abort e => exact ⟨h.1, habort s h.2⟩

theorem Meets.session {α ω : Type} {abort Q : Session ω → Prop} {P : Option α → Session ω → Prop}
    {result : Outcome α × Session ω} (h : Meets abort P result) (hP : ∀ o s, P o s → Q s)
    (habort : ∀ s, abort s → Q s) : Q result.2 := by
  obtain ⟨outcome, s⟩ := result
  cases outcome with
  | ok a => exact hP (some a) s h
  | backtrack f => exact hP none s h
  | abort e => exact habort s h.2

/-- A match put behind the trees and the splice from before. -/
def Piece.onto (x : Piece) (out : Array ParseTree) (splice : Option Nat) : Matched :=
  ⟨x.stop, out ++ x.trees.toArray, (x.splice.map (· + out.size)).or splice⟩

@[simp] theorem Piece.nothing_onto (p : Nat) (out : Array ParseTree) (splice : Option Nat) :
    (Piece.nothing p).onto out splice = ⟨p, out, splice⟩ := by
  simp [nothing, onto]

theorem Piece.append_onto (x y : Piece) (out : Array ParseTree) (splice : Option Nat) :
    (x.append y).onto out splice =
      y.onto (x.onto out none).out ((x.onto out none).splice.or splice) := by
  simp only [append, onto, Option.or_none, Array.size_append, List.size_toArray]
  congr 1
  · simp
  · cases y.splice with
    | none => simp
    | some i => simp; omega

theorem Piece.onto_or (x : Piece) (out : Array ParseTree) (splice : Option Nat) :
    { x.onto out none with splice := (x.onto out none).splice.or splice } = x.onto out splice := by
  simp [onto]

/-- What is told of an evaluation that rests on the answers `A`: how far an atom got is what it
means. Nothing is told of rules. -/
def Event.Told (g : Grammar) (subject : Subject) (A : Answers) : Event → Prop
  | .rule .. => False
  | .tries .. => True
  | .tried .. => True
  | .atom id p stop =>
      p ≤ subject.length ∧ ∃ x, Meaning g subject A (.atom id) p x ∧ stop = x.map Piece.stop

/-- What an evaluation inside the applications `active` keeps to. -/
structure Contract {ω : Type} (task : Task ω) (active : List Call) where
  /-- Holds of every session. -/
  Inv : Session ω → Prop
  /-- Relates a session to those that come after it. -/
  Le : Session ω → Session ω → Prop
  /-- What the rules have answered in a session. -/
  answers : Session ω → Answers
  /-- Why the parse may have been given up, and in which session. -/
  Abort : Session ω → Prop
  refl : ∀ s, Le s s
  trans : ∀ {s s' s''}, Le s s' → Le s' s'' → Le s s''
  mono : ∀ {s s' r p o}, Le s s' → answers s r p o → answers s' r p o
  bounded : ∀ s, (answers s).Bounded task.subject.length
  note : ∀ {s event}, event.Told task.grammar task.subject (answers s) → Inv s →
    Inv (s.note task.observer active event) ∧ Le s (s.note task.observer active event)
  furthest : ∀ {s} f, Inv s → Inv { s with furthest := f } ∧ Le s { s with furthest := f }

namespace Contract

variable {ω : Type} {task : Task ω} {active : List Call} (c : Contract task active)

def Applied (s : Session ω) (r : RuleId) (p : Nat) : Outcome Found × Session ω → Prop :=
  Meets c.Abort fun o s' => c.Inv s' ∧ c.Le s s' ∧ c.answers s' r p o

/-- The evaluation of an expression keeps to the contract, with trees and a splice from before. -/
def Evaluated (form : Form) (p : Nat) (out : Array ParseTree) (splice : Option Nat)
    (s : Session ω) : Outcome Matched × Session ω → Prop :=
  Meets c.Abort fun o s' => c.Inv s' ∧ c.Le s s' ∧
    ∃ x, Meaning task.grammar task.subject (c.answers s') form p x ∧
      o = x.map fun x => x.onto out splice

/-- Every application that the evaluation of an expression visits keeps to the contract. -/
def Serves (apply : Apply ω) (form : Form) (p : Nat) (s : Session ω) : Prop :=
  ∀ s' r q, c.Le s s' → c.Inv s' →
    Visits task.grammar task.subject (c.answers s') form p r q → c.Applied s' r q (apply r q s')

def Sound (apply : Apply ω) (eval : Eval ω) (a : AtomId) : Prop :=
  ∀ p out s, p ≤ task.subject.length → c.Inv s → c.Serves apply (.atom a) p s →
    c.Evaluated (.atom a) p out none s (eval a p out s)

variable {c} {apply : Apply ω} {eval : Eval ω}

theorem Serves.of_visits {form form' : Form} {p p' : Nat} {s s' : Session ω}
    (h : c.Serves apply form p s) (hle : c.Le s s')
    (hvisits : ∀ s'' r q, c.Le s' s'' →
      Visits task.grammar task.subject (c.answers s'') form' p' r q →
      Visits task.grammar task.subject (c.answers s'') form p r q) :
    c.Serves apply form' p' s' :=
  fun s'' r q hle' hinv hv => h s'' r q (c.trans hle hle') hinv (hvisits s'' r q hle' hv)

theorem meaning_mono {form : Form} {p : Nat} {o : Option Piece} {s s' : Session ω}
    (hle : c.Le s s') (h : Meaning task.grammar task.subject (c.answers s) form p o) :
    Meaning task.grammar task.subject (c.answers s') form p o :=
  h.mono fun _ _ _ => c.mono hle

theorem Evaluated.of_le {form : Form} {p : Nat} {out : Array ParseTree} {splice : Option Nat}
    {s s' : Session ω} {result : Outcome Matched × Session ω}
    (h : c.Evaluated form p out splice s' result) (hle : c.Le s s') :
    c.Evaluated form p out splice s result :=
  h.imp fun _ _ h => ⟨h.1, c.trans hle h.2.1, h.2.2⟩

theorem Evaluated.of_meaning {form form' : Form} {p : Nat} {out : Array ParseTree}
    {splice : Option Nat} {s : Session ω} {result : Outcome Matched × Session ω}
    (h : c.Evaluated form p out splice s result)
    (hmeaning : ∀ A x, Meaning task.grammar task.subject A form p x →
      Meaning task.grammar task.subject A form' p x) :
    c.Evaluated form' p out splice s result :=
  h.imp fun _ _ ⟨hinv, hle, x, hx, ho⟩ => ⟨hinv, hle, x, hmeaning _ _ hx, ho⟩

section Operators

variable {input : Input} (hg : task.grammar.WellFormed) (hsubject : task.subject = .ofInput input)

include hg hsubject in
theorem stop_bounds {form : Form} {p : Nat} {x : Piece} {s : Session ω}
    (hx : Meaning task.grammar task.subject (c.answers s) form p (some x))
    (hp : p ≤ task.subject.length) : p ≤ x.stop ∧ x.stop ≤ task.subject.length := by
  have hbounded := c.bounded s
  rw [hsubject, Subject.length_ofInput] at hbounded hp ⊢
  rw [hsubject] at hx
  exact hx.bounds hg hbounded x rfl hp

include hg hsubject in
theorem sequence_evaluated {atoms : List AtomId} (hsound : ∀ a ∈ atoms, c.Sound apply eval a)
    {p : Nat} (out : Array ParseTree) (splice : Option Nat) {s : Session ω}
    (hp : p ≤ task.subject.length) (hinv : c.Inv s) (hserves : c.Serves apply (.items atoms) p s) :
    c.Evaluated (.items atoms) p out splice s (Task.sequence eval atoms p out splice s) := by
  induction atoms generalizing p out splice s with
  | nil =>
      refine ⟨hinv, c.refl s, some (.nothing p), .done, ?_⟩
      rw [Option.map_some, Piece.nothing_onto]
  | cons a rest ih =>
      have hfirst := hsound a List.mem_cons_self p out s hp hinv
        (hserves.of_visits (c.refl s) fun _ _ _ _ hv => .item hv)
      rw [Task.sequence]
      rcases heval : eval a p out s with ⟨_ | _ | _, s₁⟩ <;> rw [heval] at hfirst <;> dsimp only
      · obtain ⟨hinv₁, hle₁, x, hx, hm⟩ := hfirst
        obtain ⟨x, rfl, rfl⟩ := Option.map_eq_some_iff.1 hm.symm
        obtain ⟨-, hlen⟩ := stop_bounds hg hsubject hx hp
        refine (ih (fun b hb => hsound b (List.mem_cons_of_mem a hb)) _ _ hlen hinv₁
          (hserves.of_visits hle₁ fun _ _ _ hle hv => .items (meaning_mono hle hx) hv)).imp ?_
        rintro o s₂ ⟨hinv₂, hle₂, y, hy, rfl⟩
        refine ⟨hinv₂, c.trans hle₁ hle₂, _, .item (meaning_mono hle₂ hx) hy, ?_⟩
        rw [Option.map_map]
        congr
        funext y
        exact (x.append_onto y out splice).symm
      · obtain ⟨hinv₁, hle₁, x, hx, hm⟩ := hfirst
        rw [eq_comm, Option.map_eq_none_iff] at hm
        subst hm
        exact ⟨hinv₁, hle₁, none, .broken hx, rfl⟩
      · exact hfirst

theorem note_kept {form : Form} {p : Nat} {out : Array ParseTree} {s s' : Session ω}
    {o : Option Matched} {event : Event}
    (hevent : event.Told task.grammar task.subject (c.answers s'))
    (h : c.Inv s' ∧ c.Le s s' ∧ ∃ x, Meaning task.grammar task.subject (c.answers s') form p x ∧
      o = x.map fun x => x.onto out none) :
    c.Inv (s'.note task.observer active event) ∧ c.Le s (s'.note task.observer active event) ∧
      ∃ x, Meaning task.grammar task.subject
          (c.answers (s'.note task.observer active event)) form p x ∧
        o = x.map fun x => x.onto out none := by
  obtain ⟨hinv, hle, x, hx, ho⟩ := h
  obtain ⟨hinv', hle'⟩ := c.note hevent hinv
  exact ⟨hinv', c.trans hle hle', x, meaning_mono hle' hx, ho⟩

theorem alternative_evaluated {a : AtomId} (hsound : c.Sound apply eval a) (id : AtomId)
    (index : Nat) {p : Nat} (out : Array ParseTree) {s : Session ω} (hp : p ≤ task.subject.length)
    (hinv : c.Inv s) (hserves : c.Serves apply (.atom a) p s) :
    c.Evaluated (.atom a) p out none s (task.alternative eval active id index a p out s) := by
  obtain ⟨hinv₀, hle₀⟩ := c.note (show (Event.tries id index p).Told _ _ _ from trivial) hinv
  have hkept := (hsound p out _ hp hinv₀
    (hserves.of_visits hle₀ fun _ _ _ _ hv => hv)).of_le hle₀
  rw [Task.alternative]
  rcases heval : eval a p out (s.note task.observer active (.tries id index p)) with
    ⟨_ | _ | _, s₁⟩ <;> rw [heval] at hkept
  · exact note_kept trivial hkept
  · exact note_kept trivial hkept
  · exact hkept

theorem choice_evaluated {atoms : List AtomId} (hsound : ∀ a ∈ atoms, c.Sound apply eval a)
    (id : AtomId) (index : Nat) {p : Nat} (out : Array ParseTree) (failure : Failure)
    {s : Session ω} (hp : p ≤ task.subject.length) (hinv : c.Inv s)
    (hserves : c.Serves apply (.alternatives atoms) p s) :
    c.Evaluated (.alternatives atoms) p out none s
      (task.choice eval active id p out index atoms failure s) := by
  induction atoms generalizing index failure s with
  | nil => exact ⟨hinv, c.refl s, none, .exhausted, rfl⟩
  | cons a rest ih =>
      have hfirst := alternative_evaluated (hsound a List.mem_cons_self) id index out hp hinv
        (hserves.of_visits (c.refl s) fun _ _ _ _ hv => .alternative hv)
      rw [Task.choice]
      rcases heval : task.alternative eval active id index a p out s with ⟨_ | _ | _, s₁⟩ <;>
        rw [heval] at hfirst <;> dsimp only
      · obtain ⟨hinv₁, hle₁, x, hx, hm⟩ := hfirst
        obtain ⟨x, rfl, -⟩ := Option.map_eq_some_iff.1 hm.symm
        exact ⟨hinv₁, hle₁, some x, .taken hx, hm⟩
      · obtain ⟨hinv₁, hle₁, x, hx, hm⟩ := hfirst
        rw [eq_comm, Option.map_eq_none_iff] at hm
        subst hm
        refine (ih (fun b hb => hsound b (List.mem_cons_of_mem a hb)) (index + 1) _ hinv₁
          (hserves.of_visits hle₁ fun _ _ _ hle hv =>
            .alternatives (meaning_mono hle hx) hv)).imp ?_
        rintro o s₂ ⟨hinv₂, hle₂, y, hy, ho⟩
        exact ⟨hinv₂, c.trans hle₁ hle₂, y, .passed (meaning_mono hle₂ hx) hy, ho⟩
      · exact hfirst

include hg hsubject in
theorem repetition_evaluated {a : AtomId} (hsound : c.Sound apply eval a) (min : Nat)
    (max : Option Nat) (rounds count : Nat) {p : Nat} (out : Array ParseTree)
    (splice : Option Nat) {s : Session ω} (hp : p ≤ task.subject.length)
    (hrounds : task.subject.length - p < rounds) (hinv : c.Inv s)
    (hserves : c.Serves apply (.run a min max count) p s) :
    c.Evaluated (.run a min max count) p out splice s
      (Task.repetition eval a min max rounds count p out splice s) := by
  induction rounds generalizing count p out splice s with
  | zero => omega
  | succ rounds ih =>
      rw [Task.repetition, ← isFull]
      by_cases hfull : isFull max count = true
      · rw [if_pos hfull]
        refine ⟨hinv, c.refl s, some (.nothing p), .full hfull, ?_⟩
        rw [Option.map_some, Piece.nothing_onto]
      rw [if_neg hfull]
      rw [Bool.not_eq_true] at hfull
      have hfirst := hsound p out s hp hinv
        (hserves.of_visits (c.refl s) fun _ _ _ _ hv => .next hfull hv)
      rcases heval : eval a p out s with ⟨_ | _ | _, s₁⟩ <;> rw [heval] at hfirst <;> dsimp only
      · obtain ⟨hinv₁, hle₁, x, hx, hm⟩ := hfirst
        obtain ⟨x, rfl, rfl⟩ := Option.map_eq_some_iff.1 hm.symm
        obtain ⟨-, hlen⟩ := stop_bounds hg hsubject hx hp
        by_cases hlt : p < x.stop
        · rw [if_pos (show p < (x.onto out none).stop from hlt)]
          have hrounds' : task.subject.length - x.stop < rounds := by omega
          refine (ih (count + 1) _ _ hlen hrounds' hinv₁ (hserves.of_visits hle₁
            fun _ _ _ hle hv => .more hfull (meaning_mono hle hx) hlt hv)).imp ?_
          rintro o s₂ ⟨hinv₂, hle₂, y, hy, rfl⟩
          refine ⟨hinv₂, c.trans hle₁ hle₂, _, .more hfull (meaning_mono hle₂ hx) hlt hy, ?_⟩
          rw [Option.map_map]
          congr
          funext y
          exact (x.append_onto y out splice).symm
        · rw [if_neg (show ¬ p < (x.onto out none).stop from hlt), Piece.onto_or]
          exact ⟨hinv₁, hle₁, some x, .empty hfull hx hlt, rfl⟩
      · obtain ⟨hinv₁, hle₁, x, hx, hm⟩ := hfirst
        rw [eq_comm, Option.map_eq_none_iff] at hm
        subst hm
        split
        · rename_i hcount
          exact ⟨hinv₁, hle₁, none, .tooFew hfull hx hcount, rfl⟩
        · rename_i hcount
          refine ⟨hinv₁, hle₁, some (.nothing p), .enough hfull hx hcount, ?_⟩
          rw [Option.map_some, Piece.nothing_onto]
      · exact hfirst

theorem lookahead_evaluated {a : AtomId} (hsound : c.Sound apply eval a) (id : AtomId)
    (positive : Bool) {p : Nat} (out : Array ParseTree) {s : Session ω}
    (hp : p ≤ task.subject.length) (hinv : c.Inv s) (hserves : c.Serves apply (.atom a) p s) :
    c.Evaluated (.operator id (.lookahead a positive)) p out none s
      (Task.lookahead eval a positive p out s) := by
  have heval := hsound p #[] s hp hinv hserves
  unfold Task.lookahead
  -- What was expected on the way is forgotten, and that is no part of the contract.
  have hforget : ∀ {s' : Session ω} {o : Option Piece} (b : Bool), c.Inv s' → c.Le s s' →
      Meaning task.grammar task.subject (c.answers s') (.atom a) p o → o.isSome = b →
      c.Inv { s' with furthest := s.furthest } ∧ c.Le s { s' with furthest := s.furthest } ∧
        ∃ x, Meaning task.grammar task.subject (c.answers { s' with furthest := s.furthest })
            (.operator id (.lookahead a positive)) p x ∧
          x = if b = positive then some (.nothing p) else none := by
    intro s' o b hinv' hle' hx hb
    obtain ⟨hinv'', hle''⟩ := c.furthest s.furthest hinv'
    refine ⟨hinv'', c.trans hle' hle'', _, .lookahead (meaning_mono hle'' hx), ?_⟩
    rw [hb]
  rcases hresult : eval a p #[] s with ⟨_ | _ | _, s₁⟩ <;> rw [hresult] at heval
  · obtain ⟨hinv₁, hle₁, x, hx, hm⟩ := heval
    obtain ⟨x, rfl, -⟩ := Option.map_eq_some_iff.1 hm.symm
    obtain ⟨hinv₂, hle₂, y, hy, rfl⟩ := hforget true hinv₁ hle₁ hx rfl
    cases positive with
    | true =>
        refine ⟨hinv₂, hle₂, _, hy, ?_⟩
        rw [if_pos rfl, Option.map_some, Piece.nothing_onto]
    | false => exact ⟨hinv₂, hle₂, _, hy, rfl⟩
  · obtain ⟨hinv₁, hle₁, x, hx, hm⟩ := heval
    rw [eq_comm, Option.map_eq_none_iff] at hm
    subst hm
    cases positive with
    | true => exact ⟨hinv₁, hle₁, _, .lookahead hx, rfl⟩
    | false =>
        obtain ⟨hinv₂, hle₂, y, hy, rfl⟩ := hforget false hinv₁ hle₁ hx rfl
        refine ⟨hinv₂, hle₂, _, hy, ?_⟩
        rw [if_pos rfl, Option.map_some, Piece.nothing_onto]
  · cases positive <;> exact heval

theorem terminal_evaluated {id : AtomId} {atom : Atom} (p : Nat) (out : Array ParseTree)
    {s : Session ω} (hinv : c.Inv s)
    (hmeaning : ∀ A, Meaning task.grammar task.subject A (.operator id atom) p
      ((task.subject.matchTerminal task.grammar id p).map fun m => .single m.1 m.2)) :
    c.Evaluated (.operator id atom) p out none s (task.terminal id p out s) := by
  have hx := fun s' => hmeaning (c.answers s')
  rw [Task.terminal]
  cases hmatch : task.subject.matchTerminal task.grammar id p with
  | some m =>
      rw [hmatch] at hx
      refine ⟨hinv, c.refl s, _, hx s, ?_⟩
      simp [Piece.single, Piece.onto]
  | none =>
      rw [hmatch] at hx
      obtain ⟨hinv', hle'⟩ := c.furthest
        (s.furthest.combine (.expecting p (task.grammar.label id))) hinv
      exact ⟨hinv', hle', _, hx _, rfl⟩

theorem rule_evaluated (id : AtomId) {r : RuleId} {p : Nat} (out : Array ParseTree)
    {s : Session ω} (h : c.Applied s r p (apply r p s)) :
    c.Evaluated (.operator id (.rule r)) p out none s
      (match apply r p s with
      | (.ok found, s) => (.ok ⟨found.stop, out.push found.tree, none⟩, s)
      | (.backtrack f, s) => (.backtrack f, s)
      | (.abort e, s) => (.abort e, s)) := by
  rcases hresult : apply r p s with ⟨_ | _ | _, s₁⟩ <;> rw [hresult] at h
  · refine ⟨h.1, h.2.1, _, .rule h.2.2, ?_⟩
    simp [Piece.single, Piece.onto]
  · exact ⟨h.1, h.2.1, _, .rule h.2.2, rfl⟩
  · exact h

theorem discard_evaluated {a : AtomId} (hsound : c.Sound apply eval a) (id : AtomId) {p : Nat}
    (out : Array ParseTree) {s : Session ω} (hp : p ≤ task.subject.length) (hinv : c.Inv s)
    (hserves : c.Serves apply (.atom a) p s) :
    c.Evaluated (.operator id (.discard a)) p out none s
      (match eval a p #[] s with
      | (.ok m, s) => (.ok ⟨m.stop, out, none⟩, s)
      | (.backtrack f, s) => (.backtrack f, s)
      | (.abort e, s) => (.abort e, s)) := by
  have heval := hsound p #[] s hp hinv hserves
  rcases hresult : eval a p #[] s with ⟨_ | _ | _, s₁⟩ <;> rw [hresult] at heval
  · obtain ⟨hinv₁, hle₁, x, hx, hm⟩ := heval
    obtain ⟨x, rfl, rfl⟩ := Option.map_eq_some_iff.1 hm.symm
    refine ⟨hinv₁, hle₁, _, .discard hx, ?_⟩
    rw [Option.map_some, Option.map_some, Piece.nothing_onto]
    rfl
  · obtain ⟨hinv₁, hle₁, x, hx, hm⟩ := heval
    rw [eq_comm, Option.map_eq_none_iff] at hm
    subst hm
    exact ⟨hinv₁, hle₁, _, .discard hx, rfl⟩
  · exact heval

theorem splice_evaluated {a : AtomId} (hsound : c.Sound apply eval a) (id : AtomId) {p : Nat}
    (out : Array ParseTree) {s : Session ω} (hp : p ≤ task.subject.length) (hinv : c.Inv s)
    (hserves : c.Serves apply (.atom a) p s) :
    c.Evaluated (.operator id (.splice a)) p out none s
      (match eval a p out s with
      | (.ok m, s) =>
          (.ok { m with
            splice := if m.out.size = out.size + 1 then some out.size else m.splice }, s)
      | (.backtrack f, s) => (.backtrack f, s)
      | (.abort e, s) => (.abort e, s)) := by
  have heval := hsound p out s hp hinv hserves
  rcases hresult : eval a p out s with ⟨_ | _ | _, s₁⟩ <;> rw [hresult] at heval
  · obtain ⟨hinv₁, hle₁, x, hx, hm⟩ := heval
    obtain ⟨x, rfl, rfl⟩ := Option.map_eq_some_iff.1 hm.symm
    refine ⟨hinv₁, hle₁, _, .splice hx, ?_⟩
    simp only [Option.map_some, Piece.onto, Piece.spliced, Array.size_append, List.size_toArray,
      Nat.add_left_cancel_iff, Option.or_none]
    split <;> simp
  · obtain ⟨hinv₁, hle₁, x, hx, hm⟩ := heval
    rw [eq_comm, Option.map_eq_none_iff] at hm
    subst hm
    exact ⟨hinv₁, hle₁, _, .splice hx, rfl⟩
  · exact heval

include hg hsubject in
theorem operator_evaluated (id : AtomId) {atom : Atom}
    (hsound : ∀ a ∈ atom.children, c.Sound apply eval a) {p : Nat} (out : Array ParseTree)
    {s : Session ω} (hp : p ≤ task.subject.length) (hinv : c.Inv s)
    (hserves : c.Serves apply (.operator id atom) p s) :
    c.Evaluated (.operator id atom) p out none s
      (task.operator apply eval active id atom p out s) := by
  cases atom with
  | rule r => exact rule_evaluated id out (hserves s r p (c.refl s) hinv .rule)
  | literal text => exact terminal_evaluated p out hinv fun _ => .literal
  | pattern pattern => exact terminal_evaluated p out hinv fun _ => .pattern
  | token name => exact terminal_evaluated p out hinv fun _ => .token
  | sequence atoms =>
      exact (sequence_evaluated hg hsubject hsound out none hp hinv
        (hserves.of_visits (c.refl s) fun _ _ _ _ hv => .sequence hv)).of_meaning
          fun _ _ hx => .sequence hx
  | choice atoms =>
      exact (choice_evaluated hsound id 0 out (.here p) hp hinv
        (hserves.of_visits (c.refl s) fun _ _ _ _ hv => .choice hv)).of_meaning
          fun _ _ hx => .choice hx
  | repetition a min max =>
      exact (repetition_evaluated hg hsubject (hsound a List.mem_cons_self) min max
        (task.subject.length - p + 1) 0 out none hp (Nat.lt_succ_self _) hinv
        (hserves.of_visits (c.refl s) fun _ _ _ _ hv => .repetition hv)).of_meaning
          fun _ _ hx => .repetition hx
  | lookahead a positive =>
      exact lookahead_evaluated (hsound a List.mem_cons_self) id positive out hp hinv
        (hserves.of_visits (c.refl s) fun _ _ _ _ hv => .lookahead hv)
  | discard a =>
      exact discard_evaluated (hsound a List.mem_cons_self) id out hp hinv
        (hserves.of_visits (c.refl s) fun _ _ _ _ hv => .discard hv)
  | splice a =>
      exact splice_evaluated (hsound a List.mem_cons_self) id out hp hinv
        (hserves.of_visits (c.refl s) fun _ _ _ _ hv => .splice hv)

theorem noteAtom_evaluated {id : AtomId} {p : Nat} {out : Array ParseTree} {s : Session ω}
    {result : Outcome Matched × Session ω} (hp : p ≤ task.subject.length)
    (h : c.Evaluated (.atom id) p out none s result) :
    c.Evaluated (.atom id) p out none s (task.noteAtom active id p result) := by
  obtain ⟨m | f | e, s'⟩ := result
  · obtain ⟨x, hx, hm⟩ := h.2.2
    obtain ⟨x, rfl, rfl⟩ := Option.map_eq_some_iff.1 hm.symm
    exact note_kept ⟨hp, some x, hx, rfl⟩ h
  · obtain ⟨x, hx, hm⟩ := h.2.2
    rw [eq_comm, Option.map_eq_none_iff] at hm
    subst hm
    exact note_kept ⟨hp, none, hx, rfl⟩ h
  · exact h

include hg hsubject in
/-- The evaluation of an atom numbered below the bound keeps to the contract. -/
theorem eval_sound (apply : Apply ω) {bound id : Nat} (hid : id < bound)
    (hbound : bound ≤ task.grammar.atoms.size) :
    c.Sound apply (task.eval apply active bound) id := by
  induction bound generalizing id with
  | zero => exact absurd hid (Nat.not_lt_zero id)
  | succ bound ih =>
      intro p out s hp hinv hserves
      have hatom := Array.getElem?_eq_getElem (Nat.lt_of_lt_of_le hid hbound)
      generalize task.grammar.atoms[id] = atom at hatom
      have hoperator : c.Evaluated (.operator id atom) p out none s
          (task.operator apply (task.eval apply active bound) active id atom p out s) :=
        operator_evaluated hg hsubject id
        (fun a ha => ih (Nat.lt_of_lt_of_le (hg.child_lt hatom a ha) (Nat.le_of_lt_succ hid))
          (Nat.le_of_succ_le hbound))
        out hp hinv (hserves.of_visits (c.refl s) fun _ _ _ _ hv => .atom hatom hv)
      have hkept := hoperator.of_meaning fun A x hx => Meaning.atom hatom hx
      rw [Task.eval, hatom]
      exact noteAtom_evaluated hp hkept

include hg hsubject in
theorem body_meets {r : RuleId} (hr : r < task.grammar.rules.size) {p : Nat}
    (hp : p ≤ task.subject.length) {s : Session ω} (hinv : c.Inv s)
    (happly : ∀ s' r' q, c.Le s s' → c.Inv s' →
      BodyVisits task.grammar task.subject (c.answers s') r p r' q →
      c.Applied s' r' q (apply r' q s')) :
    Meets c.Abort
      (fun o s' => c.Inv s' ∧ c.Le s s' ∧ Body task.grammar task.subject (c.answers s') r p o)
      (task.body apply active r p s) := by
  have hrule := Array.getElem?_eq_getElem hr
  generalize task.grammar.rules[r] = rule at hrule
  have heval := eval_sound hg hsubject (c := c) apply (hg.body_lt hrule) (Nat.le_refl _) p #[] s hp
    hinv fun s' r' q hle hinv' hv => happly s' r' q hle hinv' ⟨rule, hrule, hv⟩
  rw [Task.body, hrule]
  dsimp only
  rcases hresult : task.eval apply active task.grammar.atoms.size rule.body p #[] s with
    ⟨_ | _ | _, s₁⟩ <;> rw [hresult] at heval
  · obtain ⟨hinv₁, hle₁, x, hx, hm⟩ := heval
    obtain ⟨x, rfl, rfl⟩ := Option.map_eq_some_iff.1 hm.symm
    refine ⟨hinv₁, hle₁, rule, hrule, _, hx, ?_⟩
    simp [Piece.found, Piece.onto]
  · obtain ⟨hinv₁, hle₁, x, hx, hm⟩ := heval
    rw [eq_comm, Option.map_eq_none_iff] at hm
    subst hm
    exact ⟨hinv₁, hle₁, rule, hrule, _, hx, rfl⟩
  · exact heval

end Operators

end Contract

end Seedling
