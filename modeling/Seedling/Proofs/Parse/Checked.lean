import Seedling.Proofs.Grammar.Checked
import Seedling.Proofs.Parse.Reuse
import Seedling.Proofs.Parse.Truthful

/-!
Parsing with nothing taken on trust. Every step is made here as it is made in a parse, except
that it ends where an atom, a rule, a label or a recognizer is looked up that is not there,
where a position lies outside the input or a match stops before it starts, and where a recursion
or a loop comes to its bound. A splice is handed on together with the tree that its atom
produced, and has to lead to that tree in the end.

Main statement: a grammar is accepted exactly if its tables are in order and no left recursion is
hopeless; and then neither the analysis of it nor a parse of any input ends this way.
-/

namespace Seedling

namespace ParseTree

mutual

def decEq : (a b : ParseTree) → Decidable (a = b)
  | .leaf s t p, .leaf s' t' p' => decidable_of_iff (s = s' ∧ t = t' ∧ p = p') (by simp)
  | .node s trees, .node s' trees' =>
      have := decEqForest trees trees'
      decidable_of_iff (s = s' ∧ trees = trees') (by simp)
  | .leaf .., .node .. => .isFalse (by simp)
  | .node .., .leaf .. => .isFalse (by simp)

def decEqForest : (as bs : List ParseTree) → Decidable (as = bs)
  | [], [] => .isTrue rfl
  | a :: as, b :: bs =>
      have := decEq a b
      have := decEqForest as bs
      decidable_of_iff (a = b ∧ as = bs) (by simp)
  | [], _ :: _ => .isFalse (by simp)
  | _ :: _, [] => .isFalse (by simp)

end

instance : DecidableEq ParseTree := decEq

end ParseTree

namespace Checked

variable {ω α β : Type}

abbrev Reply (ω α : Type) := Outcome α × Session ω

/-- A match of an atom. A splice comes with the tree that its atom produced. -/
structure Marked where
  stop : Nat
  out : Array ParseTree
  splice : Option (Nat × ParseTree)

abbrev Eval (ω : Type) := AtomId → Nat → Array ParseTree → Session ω → Option (Reply ω Marked)

abbrev Apply (ω : Type) := RuleId → Nat → Session ω → Option (Reply ω Found)

/-- Goes on after a match. -/
def andThen (result : Option (Reply ω α)) (next : α → Session ω → Option (Reply ω β)) :
    Option (Reply ω β) := do
  match ← result with
  | (.ok a, s) => next a s
  | (.backtrack f, s) => return (.backtrack f, s)
  | (.abort e, s) => return (.abort e, s)

def tell (note : Option Nat → Session ω → Session ω) : Reply ω Marked → Reply ω Marked
  | (.ok m, s) => (.ok m, note (some m.stop) s)
  | (.backtrack f, s) => (.backtrack f, note none s)
  | (.abort e, s) => (.abort e, s)

/-- A match does not stop before it starts, nor behind the end. -/
def within (length pos : Nat) (stop : α → Nat) : Reply ω α → Option (Reply ω α)
  | (.ok a, s) => if pos ≤ stop a ∧ stop a ≤ length then some (.ok a, s) else none
  | (.backtrack f, s) => some (.backtrack f, s)
  | (.abort e, s) => some (.abort e, s)

/-! ### Terminals -/

def label (g : Grammar) (id : AtomId) : Option String := do (← g.atoms[id]?).label?

def position (lines : Source.LineIndex) (offset : Nat) : Option Source.Position := do
  guard (offset ≤ lines.length)
  let before := lines.starts.takeWhile (· ≤ offset)
  return ⟨offset, before.length, offset - (← before.getLast?) + 1⟩

def matchTerminal (subject : Subject) (g : Grammar) (id : AtomId) (pos : Nat) :
    Option (Option (Nat × ParseTree)) := do
  match subject, ← g.atoms[id]? with
  | .text bytes lines, .literal s => do
      guard (pos ≤ bytes.length)
      let leaf := .leaf (← label g id) s (← position lines pos)
      return if (Text.bytes s).isPrefixOf (bytes.drop pos) then some (pos + s.utf8ByteSize, leaf)
        else none
  | .text bytes lines, .pattern _ => do
      guard (pos ≤ bytes.length)
      let symbol ← label g id
      let start ← position lines pos
      match (← (← g.matchers[id]?)).longestMatch bytes pos with
      | .ok m => do
          guard (pos ≤ m.stop ∧ m.stop ≤ bytes.length)
          return some (m.stop, .leaf symbol (Text.decode (Source.slice bytes pos m.stop)) start)
      | .error _ => return none
  | .tokens ts, .token name => do
      guard (pos ≤ ts.size)
      return do
        let token ← ts[pos]?
        if token.name = name then some (pos + 1, .leaf name token.source token.position) else none
  | _, _ => return none

def terminal (task : Task ω) (id : AtomId) (pos : Nat) (out : Array ParseTree) (s : Session ω) :
    Option (Reply ω Marked) := do
  match ← matchTerminal task.subject task.grammar id pos with
  | some (stop, leaf) => return (.ok ⟨stop, out.push leaf, none⟩, s)
  | none =>
      let failure := Failure.expecting pos (← label task.grammar id)
      return (.backtrack failure, s.fail failure)

/-! ### Operators -/

def sequence (eval : Eval ω) :
    List AtomId → Nat → Array ParseTree → Option (Nat × ParseTree) → Session ω →
      Option (Reply ω Marked)
  | [], pos, out, splice, s => some (.ok ⟨pos, out, splice⟩, s)
  | a :: rest, pos, out, splice, s =>
      andThen (eval a pos out s) fun m s => sequence eval rest m.stop m.out (m.splice.or splice) s

def alternative (task : Task ω) (eval : Eval ω) (active : List Call) (id : AtomId) (index : Nat)
    (a : AtomId) (pos : Nat) (out : Array ParseTree) (s : Session ω) : Option (Reply ω Marked) := do
  let result ← eval a pos out (s.note task.observer active (.tries id index pos))
  return tell (fun stop s => s.note task.observer active (.tried id index pos stop)) result

def choice (task : Task ω) (eval : Eval ω) (active : List Call) (id : AtomId) (pos : Nat)
    (out : Array ParseTree) : Nat → List AtomId → Failure → Session ω → Option (Reply ω Marked)
  | _, [], failure, s => some (.backtrack failure, s)
  | index, a :: rest, failure, s => do
      match ← alternative task eval active id index a pos out s with
      | (.ok m, s) => return (.ok m, s)
      | (.backtrack f, s) =>
          choice task eval active id pos out (index + 1) rest (failure.combine f) s
      | (.abort e, s) => return (.abort e, s)

def repetition (eval : Eval ω) (atom : AtomId) (min : Nat) (max : Option Nat) :
    Nat → Nat → Nat → Array ParseTree → Option (Nat × ParseTree) → Session ω →
      Option (Reply ω Marked)
  | 0, _, _, _, _, _ => none
  | rounds + 1, count, pos, out, splice, s =>
      if max.any (· ≤ count) then some (.ok ⟨pos, out, splice⟩, s)
      else do
        match ← eval atom pos out s with
        | (.ok m, s) =>
            if pos < m.stop then
              repetition eval atom min max rounds (count + 1) m.stop m.out (m.splice.or splice) s
            else return (.ok { m with splice := m.splice.or splice }, s)
        | (.backtrack f, s) =>
            if count < min then return (.backtrack f, s) else return (.ok ⟨pos, out, splice⟩, s)
        | (.abort e, s) => return (.abort e, s)

def lookahead (eval : Eval ω) (atom : AtomId) (positive : Bool) (pos : Nat)
    (out : Array ParseTree) (s : Session ω) : Option (Reply ω Marked) := do
  match ← eval atom pos #[] s, positive with
  | (.ok _, after), true => return (.ok ⟨pos, out, none⟩, { after with furthest := s.furthest })
  | (.ok _, after), false => return (.backtrack (.here pos), { after with furthest := s.furthest })
  | (.backtrack f, after), true => return (.backtrack f, after)
  | (.backtrack _, after), false =>
      return (.ok ⟨pos, out, none⟩, { after with furthest := s.furthest })
  | (.abort e, after), _ => return (.abort e, after)

def operator (task : Task ω) (apply : Apply ω) (eval : Eval ω) (active : List Call) (id : AtomId)
    (atom : Atom) (pos : Nat) (out : Array ParseTree) (s : Session ω) : Option (Reply ω Marked) :=
  match atom with
  | .rule rule =>
      andThen (apply rule pos s) fun found s =>
        some (.ok ⟨found.stop, out.push found.tree, none⟩, s)
  | .literal _ => terminal task id pos out s
  | .pattern _ => terminal task id pos out s
  | .token _ => terminal task id pos out s
  | .sequence atoms => sequence eval atoms pos out none s
  | .choice atoms => choice task eval active id pos out 0 atoms (.here pos) s
  | .repetition a min max =>
      repetition eval a min max (task.subject.length - pos + 1) 0 pos out none s
  | .lookahead a positive => lookahead eval a positive pos out s
  | .discard a => andThen (eval a pos #[] s) fun m s => some (.ok ⟨m.stop, out, none⟩, s)
  | .splice a =>
      andThen (eval a pos out s) fun m s => do
        if m.out.size = out.size + 1 then
          return (.ok { m with splice := some (out.size, ← m.out[out.size]?) }, s)
        else return (.ok m, s)

def eval (task : Task ω) (apply : Apply ω) (active : List Call) : Nat → Eval ω
  | 0, _, _, _, _ => none
  | bound + 1, id, pos, out, s => do
      guard (pos ≤ task.subject.length)
      let atom ← task.grammar.atoms[id]?
      let result ← operator task apply (eval task apply active bound) active id atom pos out s
      within task.subject.length pos Marked.stop
        (tell (fun stop s => s.note task.observer active (.atom id pos stop)) result)

/-! ### Rules -/

def body (task : Task ω) (apply : Apply ω) (active : List Call) (rule : RuleId) (pos : Nat)
    (s : Session ω) : Option (Reply ω Found) := do
  let r ← task.grammar.rules[rule]?
  andThen (eval task apply active task.grammar.atoms.size r.body pos #[] s) fun m s =>
    match m.splice with
    | none => some (.ok ⟨.node r.name m.out.toList, m.stop⟩, s)
    | some (i, tree) => do
        guard (m.out[i]? = some tree)
        return (.ok ⟨tree, m.stop⟩, s)

def grow (task : Task ω) (active : List Call) (rule : RuleId) (pos : Nat)
    (body : Session ω → Option (Reply ω Found)) : Nat → Session ω → Option (Reply ω Found)
  | 0, _ => none
  | rounds + 1, s => do
      match task.settle active rule pos (← body s) with
      | .done outcome s => return (outcome, s)
      | .again s => grow task active rule pos body rounds s

def apply (task : Task ω) : Nat → List Call → Apply ω
  | 0, active, _, _, s =>
      some (.abort (.recursionLimitExceeded (active.length + 1) active.length), s)
  | room + 1, active, rule, pos, s => do
      guard (rule < task.grammar.rules.size ∧ pos ≤ task.subject.length)
      let (known, memo) := s.memo.lookup pos rule
      let s := { s with memo }
      let result ← match known with
        | some entry => pure (task.replay active rule pos entry s)
        | none =>
            let inside := ⟨rule, pos⟩ :: active
            grow task active rule pos (body task (apply task room inside) inside rule pos)
              (task.subject.length - pos + 2) (task.entered active rule pos s)
      within task.subject.length pos Found.stop result

/-- An error is at a position of the input. -/
def located (subject : Subject) :
    Except ParseError ParseTree → Option (Except ParseError ParseTree)
  | .ok tree => some (.ok tree)
  | .error e => do
      guard (∀ position ∈ e.position?, position ≤ subject.length)
      return .error e

def evaluate (p : Parser) (observer : Observer ω) (log : ω) (rule : RuleId) (input : Input) :
    Option (Outcome Found × Session ω) :=
  apply ⟨p.grammar, .ofInput input, observer⟩ (p.config.maxDepth - p.depth) p.callStack rule 0
    ⟨p.memo, p.furthest, log⟩

def run (p : Parser) (observer : Observer ω) (log : ω) (rule : RuleId) (input : Input) :
    Option (Except ParseError ParseTree × ω × Parser) :=
  match Parser.refusal p.grammar p.config input with
  | some e => some (.error e, log, p)
  | none => do
      let p := p.reset
      let result ← evaluate p observer log rule input
      let verdict ← located (.ofInput input) (Parser.conclude (.ofInput input) result)
      return (verdict, result.2.log, p.leave result)

/-! ### Terminals in range -/

theorem guard_eq {p : Prop} [Decidable p] (h : p) : (guard p : Option Unit) = some () := if_pos h

section Terminals

variable {g : Grammar} {id : AtomId} {atom : Atom} {p : Nat}

theorem label_eq (hatom : g.atoms[id]? = some atom) (hlabel : atom.label?.isSome = true) :
    label g id = some (g.label id) := by
  obtain ⟨text, htext⟩ := Option.isSome_iff_exists.1 hlabel
  rw [label, Grammar.label, hatom, Option.bind_eq_bind, Option.bind_some, htext]
  rfl

/-- The first line starts at or before every offset. -/
theorem position_eq {bytes : List UInt8} (hp : p ≤ bytes.length) :
    position (.ofBytes bytes) p = some ((Source.LineIndex.ofBytes bytes).position p) := by
  obtain ⟨start, hstart⟩ : ∃ start,
      ((Source.LineIndex.ofBytes bytes).starts.takeWhile (· ≤ p)).getLast? = some start := by
    rw [Source.LineIndex.ofBytes, List.takeWhile_cons_of_pos (by simp)]
    exact ⟨_, List.getLast?_cons⟩
  have hlen : min p (Source.LineIndex.ofBytes bytes).length = p := Nat.min_eq_left hp
  simp only [position, guard_eq (show p ≤ (Source.LineIndex.ofBytes bytes).length from hp), hstart,
    Source.LineIndex.position, hlen, List.getLastD_eq_getLast?, Option.getD_some,
    Option.bind_eq_bind, Option.bind_some]
  rfl

theorem matchTerminal_eq (hg : g.Ready) {input : Input} (hp : p ≤ input.length)
    (hatom : g.atoms[id]? = some atom) :
    matchTerminal (.ofInput input) g id p =
      some ((Subject.ofInput input).matchTerminal g id p) := by
  have hlabel : atom.label?.isSome = true → label g id = some (g.label id) := label_eq hatom
  cases input with
  | text t =>
      have hp' : p ≤ (Text.bytes t).length := hp
      simp only [Subject.ofInput, matchTerminal, Subject.matchTerminal, hatom, Option.bind_eq_bind,
        Option.bind_some]
      cases atom with
      | literal s =>
          simp only [guard_eq hp', hlabel rfl, position_eq hp', Option.bind_some]
          rfl
      | pattern pattern =>
          obtain ⟨m, hm⟩ := hg.recognizer hatom
          have hmatcher : g.matcher? id = some m := by rw [Grammar.matcher?, hm, Option.join_some]
          simp only [guard_eq hp', hlabel rfl, position_eq hp', hm, hmatcher, Option.bind_some]
          cases hfound : m.longestMatch (Text.bytes t) p with
          | error i => rfl
          | ok found =>
              obtain ⟨hle, hlen, -⟩ := hg.longestMatch_stop hmatcher hp' hfound
              simp only [guard_eq (And.intro hle hlen), Option.bind_some]
              rfl
      | rule | token | sequence | choice | repetition | lookahead | discard | splice => rfl
  | tokens ts =>
      have hp' : p ≤ ts.toArray.size := by simpa [Input.length] using hp
      simp only [Subject.ofInput, matchTerminal, Subject.matchTerminal, hatom, Option.bind_eq_bind,
        Option.bind_some]
      cases atom with
      | token name =>
          simp only [guard_eq hp', Option.bind_some]
          rfl
      | rule | literal | pattern | sequence | choice | repetition | lookahead | discard
      | splice => rfl

end Terminals

/-! ### Evaluation in range -/

def Points (out : Array ParseTree) (splice : Option (Nat × ParseTree)) : Prop :=
  ∀ i tree, splice = some (i, tree) → out[i]? = some tree

/-- The match without the tree of its splice. -/
def Marked.plain (m : Marked) : Matched := ⟨m.stop, m.out, m.splice.map Prod.fst⟩

/-- Nothing was out of range, and the reply is the plain one with its splice leading to the
right tree. -/
inductive Tracks : Option (Reply ω Marked) → Reply ω Matched → Prop where
  | ok {m s} : Points m.out m.splice → Tracks (some (.ok m, s)) (.ok m.plain, s)
  | backtrack {f s} : Tracks (some (.backtrack f, s)) (.backtrack f, s)
  | abort {e s} : Tracks (some (.abort e, s)) (.abort e, s)

section Points

variable {out : Array ParseTree} {splice splice' : Option (Nat × ParseTree)}

theorem points_none (out : Array ParseTree) : Points out none := by
  intro i tree h
  contradiction

theorem Points.append (h : Points out splice) (trees : Array ParseTree) :
    Points (out ++ trees) splice := by
  intro i tree hsplice
  have hat := h i tree hsplice
  rw [Array.getElem?_append_left (Array.getElem?_eq_some_iff.1 hat).1, hat]

theorem Points.or (h : Points out splice) (h' : Points out splice') :
    Points out (splice.or splice') := by
  cases splice with
  | none => exact h'
  | some => exact h

end Points

theorem terminal_tracks {task : Task ω} (hg : task.grammar.Ready) {input : Input}
    (hsubject : task.subject = .ofInput input) {id : AtomId} {atom : Atom}
    (hatom : task.grammar.atoms[id]? = some atom) (hlabel : atom.label?.isSome = true) {p : Nat}
    (hp : p ≤ task.subject.length) (out : Array ParseTree) (s : Session ω) :
    Tracks (terminal task id p out s) (task.terminal id p out s) := by
  rw [hsubject, Subject.length_ofInput] at hp
  rw [terminal, Task.terminal, hsubject, matchTerminal_eq hg hp hatom, label_eq hatom hlabel]
  cases (Subject.ofInput input).matchTerminal task.grammar id p with
  | none => exact .backtrack
  | some m => exact .ok (points_none _)

end Checked

namespace Contract

open Checked

variable {ω : Type} {task : Task ω} {active : List Call} (c : Contract task active)

/-- Every application that the evaluation of an expression visits keeps to the contract and stays in
range. -/
structure Minds (apply : Apply ω) (checked : Checked.Apply ω) (form : Form) (p : Nat)
    (s : Session ω) :
    Prop where
  serves : c.Serves apply form p s
  inRange : ∀ s' r q, c.Le s s' → c.Inv s' →
    Visits task.grammar task.subject (c.answers s') form p r q →
      checked r q s' = some (apply r q s')

/-- The evaluation of an atom keeps to the contract and stays in range if the applications do. -/
structure Tracked (apply : Apply ω) (checked : Checked.Apply ω) (eval : Eval ω)
    (checkedEval : Checked.Eval ω) (a : AtomId) : Prop where
  sound : c.Sound apply eval a
  tracks : ∀ p out s, p ≤ task.subject.length → c.Inv s → c.Minds apply checked (.atom a) p s →
    Tracks (checkedEval a p out s) (eval a p out s)

variable {c} {apply : Apply ω} {checked : Checked.Apply ω} {eval : Eval ω}
  {checkedEval : Checked.Eval ω}

theorem Minds.of_visits {form form' : Form} {p p' : Nat} {s s' : Session ω}
    (h : c.Minds apply checked form p s) (hle : c.Le s s')
    (hvisits : ∀ s'' r q, c.Le s' s'' →
      Visits task.grammar task.subject (c.answers s'') form' p' r q →
      Visits task.grammar task.subject (c.answers s'') form p r q) :
    c.Minds apply checked form' p' s' where
  serves := h.serves.of_visits hle hvisits
  inRange s'' r q hle' hinv hv :=
    h.inRange s'' r q (c.trans hle hle') hinv (hvisits s'' r q hle' hv)

section Operators

variable {input : Input} (hg : task.grammar.Ready) (hsubject : task.subject = .ofInput input)

include hg hsubject in
/-- What a match of an atom comes to: it stops inside the input, and its trees stand behind the
others. -/
theorem Evaluated.of_plain {a : AtomId} {p : Nat} {out : Array ParseTree}
    {s s₁ : Session ω} {m : Marked}
    (h : c.Evaluated (.atom a) p out none s (.ok m.plain, s₁)) (hp : p ≤ task.subject.length) :
    c.Inv s₁ ∧ c.Le s s₁ ∧ (p ≤ m.stop ∧ m.stop ≤ task.subject.length) ∧
      (∃ trees, m.out = out ++ trees) ∧
      ∃ x, Meaning task.grammar task.subject (c.answers s₁) (.atom a) p (some x) ∧
        x.stop = m.stop := by
  obtain ⟨hinv, hle, x, hx, hm⟩ := h
  obtain ⟨x, rfl, hplain⟩ := Option.map_eq_some_iff.1 hm.symm
  have hstop : x.stop = m.stop := congrArg Matched.stop hplain
  have hbounds := stop_bounds hg.toWellFormed hsubject hx hp
  rw [hstop] at hbounds
  exact ⟨hinv, hle, hbounds, ⟨_, (congrArg Matched.out hplain).symm⟩, x, hx, hstop⟩

theorem Evaluated.of_backtrack {a : AtomId} {p : Nat} {out : Array ParseTree} {s s₁ : Session ω}
    {f : Failure} (h : c.Evaluated (.atom a) p out none s (.backtrack f, s₁)) :
    c.Inv s₁ ∧ c.Le s s₁ ∧ Meaning task.grammar task.subject (c.answers s₁) (.atom a) p none := by
  obtain ⟨hinv, hle, x, hx, hm⟩ := h
  rw [eq_comm, Option.map_eq_none_iff] at hm
  exact ⟨hinv, hle, hm ▸ hx⟩

include hg hsubject in
theorem sequence_tracks {atoms : List AtomId}
    (htracked : ∀ a ∈ atoms, c.Tracked apply checked eval checkedEval a) {p : Nat}
    {out : Array ParseTree} {splice : Option (Nat × ParseTree)} (hpoints : Points out splice)
    {s : Session ω} (hp : p ≤ task.subject.length) (hinv : c.Inv s)
    (hminds : c.Minds apply checked (.items atoms) p s) :
    Tracks (Checked.sequence checkedEval atoms p out splice s)
      (Task.sequence eval atoms p out (splice.map Prod.fst) s) := by
  induction atoms generalizing p out splice s with
  | nil => exact .ok hpoints
  | cons a rest ih =>
      obtain ⟨hsound, htracks⟩ := htracked a List.mem_cons_self
      have hitem : c.Minds apply checked (.atom a) p s :=
        hminds.of_visits (c.refl s) fun _ _ _ _ hv => .item hv
      have hfirst := hsound p out s hp hinv hitem.serves
      have hsame := htracks p out s hp hinv hitem
      rw [Checked.sequence, Task.sequence]
      generalize checkedEval a p out s = x at hsame ⊢
      generalize eval a p out s = y at hfirst hsame ⊢
      cases hsame with
      | @ok m s₁ hm =>
          obtain ⟨hinv₁, hle₁, ⟨-, hlen⟩, ⟨trees, hout⟩, x, hx, hstop⟩ :=
            hfirst.of_plain hg hsubject hp
          have hpoints₁ : Points m.out (m.splice.or splice) := hm.or (hout ▸ hpoints.append trees)
          have hrest := ih (fun b hb => htracked b (List.mem_cons_of_mem a hb)) hpoints₁ hlen hinv₁
            (hminds.of_visits hle₁ fun _ _ _ hle hv => .items (meaning_mono hle hx) (hstop ▸ hv))
          rwa [Option.map_or] at hrest
      | backtrack => exact .backtrack
      | abort => exact .abort

theorem choice_tracks {atoms : List AtomId}
    (htracked : ∀ a ∈ atoms, c.Tracked apply checked eval checkedEval a) (id : AtomId) (index : Nat)
    {p : Nat} (out : Array ParseTree) (failure : Failure) {s : Session ω}
    (hp : p ≤ task.subject.length) (hinv : c.Inv s)
    (hminds : c.Minds apply checked (.alternatives atoms) p s) :
    Tracks (Checked.choice task checkedEval active id p out index atoms failure s)
      (task.choice eval active id p out index atoms failure s) := by
  induction atoms generalizing index failure s with
  | nil => exact .backtrack
  | cons a rest ih =>
      obtain ⟨hsound, htracks⟩ := htracked a List.mem_cons_self
      obtain ⟨hinv₀, hle₀⟩ := c.note (show (Event.tries id index p).Told _ _ _ from trivial) hinv
      have halternative : c.Minds apply checked (.atom a) p s :=
        hminds.of_visits (c.refl s) fun _ _ _ _ hv => .alternative hv
      have hfirst := alternative_evaluated hsound id index out hp hinv halternative.serves
      have hsame := htracks p out _ hp hinv₀ (halternative.of_visits hle₀ fun _ _ _ _ hv => hv)
      rw [Checked.choice, Checked.alternative, Task.choice]
      unfold Task.alternative at hfirst ⊢
      generalize checkedEval a p out (s.note task.observer active (.tries id index p)) = x
        at hsame ⊢
      generalize eval a p out (s.note task.observer active (.tries id index p)) = y
        at hfirst hsame ⊢
      cases hsame with
      | ok hm => exact .ok hm
      | backtrack =>
          obtain ⟨hinv₁, hle₁, hx⟩ := hfirst.of_backtrack
          exact ih (fun b hb => htracked b (List.mem_cons_of_mem a hb)) (index + 1) _ hinv₁
            (hminds.of_visits hle₁ fun _ _ _ hle hv => .alternatives (meaning_mono hle hx) hv)
      | abort => exact .abort

include hg hsubject in
/-- Every match but the last moves on, so the rounds are not used up. -/
theorem repetition_tracks {a : AtomId} (htracked : c.Tracked apply checked eval checkedEval a)
    (min : Nat) (max : Option Nat) (rounds count : Nat) {p : Nat} {out : Array ParseTree}
    {splice : Option (Nat × ParseTree)} (hpoints : Points out splice) {s : Session ω}
    (hp : p ≤ task.subject.length) (hrounds : task.subject.length - p < rounds) (hinv : c.Inv s)
    (hminds : c.Minds apply checked (.run a min max count) p s) :
    Tracks (Checked.repetition checkedEval a min max rounds count p out splice s)
      (Task.repetition eval a min max rounds count p out (splice.map Prod.fst) s) := by
  induction rounds generalizing count p out splice s with
  | zero => omega
  | succ rounds ih =>
      rw [Checked.repetition, Task.repetition, ← isFull]
      by_cases hfull : isFull max count = true
      · rw [if_pos hfull, if_pos hfull]
        exact .ok hpoints
      rw [if_neg hfull, if_neg hfull]
      rw [Bool.not_eq_true] at hfull
      have hnext : c.Minds apply checked (.atom a) p s :=
        hminds.of_visits (c.refl s) fun _ _ _ _ hv => .next hfull hv
      have hfirst := htracked.sound p out s hp hinv hnext.serves
      have hsame := htracked.tracks p out s hp hinv hnext
      generalize checkedEval a p out s = x at hsame ⊢
      generalize eval a p out s = y at hfirst hsame ⊢
      cases hsame with
      | @ok m s₁ hm =>
          obtain ⟨hinv₁, hle₁, ⟨-, hlen⟩, ⟨trees, hout⟩, x, hx, hstop⟩ :=
            hfirst.of_plain hg hsubject hp
          have hpoints₁ : Points m.out (m.splice.or splice) := hm.or (hout ▸ hpoints.append trees)
          change Tracks (if p < m.stop then _ else _) (if p < m.stop then _ else _)
          by_cases hlt : p < m.stop
          · rw [if_pos hlt, if_pos hlt]
            have hmore := ih (count + 1) hpoints₁ hlen (by omega) hinv₁ (hminds.of_visits hle₁
              fun _ _ _ hle hv => .more hfull (meaning_mono hle hx) (hstop ▸ hlt) (hstop ▸ hv))
            rwa [Option.map_or] at hmore
          · rw [if_neg hlt, if_neg hlt]
            have hlast := Tracks.ok (ω := ω) (s := s₁)
              (m := { m with splice := m.splice.or splice }) hpoints₁
            rwa [Marked.plain, Option.map_or] at hlast
      | backtrack =>
          by_cases hcount : count < min
          · simp only [Option.bind_eq_bind, Option.bind_some, if_pos hcount]
            exact .backtrack
          · simp only [Option.bind_eq_bind, Option.bind_some, if_neg hcount]
            exact .ok hpoints
      | abort => exact .abort

theorem lookahead_tracks {x : Option (Reply ω Marked)} {y : Reply ω Matched} (h : Tracks x y)
    (a : AtomId) (positive : Bool) (p : Nat) (out : Array ParseTree) (s : Session ω) :
    Tracks (Checked.lookahead (fun _ _ _ _ => x) a positive p out s)
      (Task.lookahead (fun _ _ _ _ => y) a positive p out s) := by
  cases h with
  | ok =>
      cases positive with
      | true => exact .ok (points_none out)
      | false => exact .backtrack
  | backtrack =>
      cases positive with
      | true => exact .backtrack
      | false => exact .ok (points_none out)
  | abort => cases positive <;> exact .abort

theorem splice_tracks {x : Option (Reply ω Marked)} {y : Reply ω Matched} (h : Tracks x y)
    (out : Array ParseTree) :
    Tracks
      (andThen x fun m s => do
        if m.out.size = out.size + 1 then
          return (.ok { m with splice := some (out.size, ← m.out[out.size]?) }, s)
        else return (.ok m, s))
      (Unlimited.onMatch (fun m => { m with
        splice := if m.out.size = out.size + 1 then some out.size else m.splice }) y) := by
  cases h with
  | @ok m s hm =>
      change Tracks (if m.out.size = out.size + 1 then _ else _)
        (.ok ⟨m.stop, m.out,
          if m.out.size = out.size + 1 then some out.size else m.plain.splice⟩, s)
      by_cases hsize : m.out.size = out.size + 1
      · have hlt : out.size < m.out.size := by omega
        have htree := Array.getElem?_eq_getElem hlt
        generalize m.out[out.size] = tree at htree
        rw [if_pos hsize, if_pos hsize, htree]
        refine .ok (m := ⟨m.stop, m.out, some (out.size, tree)⟩) fun i tree' heq => ?_
        cases heq
        exact htree
      · rw [if_neg hsize, if_neg hsize]
        exact .ok hm
  | backtrack => exact .backtrack
  | abort => exact .abort

include hg hsubject in
theorem operator_tracks {id : AtomId} {atom : Atom} (hatom : task.grammar.atoms[id]? = some atom)
    (htracked : ∀ a ∈ atom.children, c.Tracked apply checked eval checkedEval a) {p : Nat}
    (out : Array ParseTree) {s : Session ω} (hp : p ≤ task.subject.length) (hinv : c.Inv s)
    (hminds : c.Minds apply checked (.operator id atom) p s) :
    Tracks (Checked.operator task checked checkedEval active id atom p out s)
      (task.operator apply eval active id atom p out s) := by
  cases atom with
  | rule r =>
      rw [Checked.operator, operator_rule, hminds.inRange s r p (c.refl s) hinv .rule]
      obtain ⟨f | f | e, s₁⟩ := apply r p s
      · exact .ok (points_none _)
      · exact .backtrack
      · exact .abort
  | literal | pattern | token => exact terminal_tracks hg hsubject hatom rfl hp out s
  | sequence atoms =>
      exact sequence_tracks hg hsubject htracked (points_none out) hp hinv
        (hminds.of_visits (c.refl s) fun _ _ _ _ hv => .sequence hv)
  | choice atoms =>
      exact choice_tracks htracked id 0 out (.here p) hp hinv
        (hminds.of_visits (c.refl s) fun _ _ _ _ hv => .choice hv)
  | repetition a min max =>
      exact repetition_tracks hg hsubject (htracked a List.mem_cons_self) min max
        (task.subject.length - p + 1) 0 (points_none out) hp (Nat.lt_succ_self _) hinv
        (hminds.of_visits (c.refl s) fun _ _ _ _ hv => .repetition hv)
  | lookahead a positive =>
      exact lookahead_tracks ((htracked a List.mem_cons_self).tracks p #[] s hp hinv
        (hminds.of_visits (c.refl s) fun _ _ _ _ hv => .lookahead hv)) a positive p out s
  | discard a =>
      have hsame := (htracked a List.mem_cons_self).tracks p #[] s hp hinv
        (hminds.of_visits (c.refl s) fun _ _ _ _ hv => .discard hv)
      rw [Checked.operator, operator_discard]
      generalize checkedEval a p #[] s = x at hsame ⊢
      generalize eval a p #[] s = y at hsame ⊢
      cases hsame with
      | ok => exact .ok (points_none out)
      | backtrack => exact .backtrack
      | abort => exact .abort
  | splice a =>
      rw [Checked.operator, operator_splice]
      exact splice_tracks ((htracked a List.mem_cons_self).tracks p out s hp hinv
        (hminds.of_visits (c.refl s) fun _ _ _ _ hv => .splice hv)) out

include hg hsubject in
/-- The evaluation of an atom numbered below the bound stays in range. -/
theorem eval_tracked (apply : Apply ω) (checked : Checked.Apply ω) {bound id : Nat}
    (hid : id < bound) (hbound : bound ≤ task.grammar.atoms.size) :
    c.Tracked apply checked (task.eval apply active bound)
      (Checked.eval task checked active bound) id := by
  refine hg.atom_induction (P := fun bound id =>
    c.Tracked apply checked (task.eval apply active bound)
      (Checked.eval task checked active bound) id)
        (fun {bound id atom} hid hbound hatom htracked => ?_)
      hid hbound
  have hsound : c.Sound apply (task.eval apply active (bound + 1)) id :=
    eval_sound hg.toWellFormed hsubject apply hid hbound
  refine ⟨hsound, fun p out s hp hinv hminds => ?_⟩
  have hoperator : Tracks
      (Checked.operator task checked
        (Checked.eval task checked active bound) active id atom p out s)
      (task.operator apply (task.eval apply active bound) active id atom p out s) :=
    operator_tracks hg hsubject hatom htracked out hp hinv
      (hminds.of_visits (c.refl s) fun _ _ _ _ hv => .atom hatom hv)
  have hkept := hsound p out s hp hinv hminds.serves
  rw [Task.eval, hatom] at hkept ⊢
  rw [Checked.eval, guard_eq hp, hatom]
  simp only [Option.bind_eq_bind, Option.bind_some] at hkept ⊢
  generalize Checked.operator task checked
    (Checked.eval task checked active bound) active id atom p out s = x
    at hoperator ⊢
  generalize task.operator apply (task.eval apply active bound) active id atom p out s = y
    at hkept hoperator ⊢
  cases hoperator with
  | @ok m s₁ hm =>
      obtain ⟨-, -, hbounds, -⟩ := Evaluated.of_plain hg hsubject (m := m) hkept hp
      rw [Option.bind_some, Checked.tell, within, if_pos hbounds]
      exact .ok hm
  | backtrack => exact .backtrack
  | abort => exact .abort

include hg hsubject in
theorem checked_body_eq {r : RuleId} (hr : r < task.grammar.rules.size) {p : Nat}
    (hp : p ≤ task.subject.length) {s : Session ω} (hinv : c.Inv s)
    (happly : ∀ s' r' q, c.Le s s' → c.Inv s' →
      BodyVisits task.grammar task.subject (c.answers s') r p r' q →
      c.Applied s' r' q (apply r' q s') ∧ checked r' q s' = some (apply r' q s')) :
    Checked.body task checked active r p s = some (task.body apply active r p s) := by
  have hrule := Array.getElem?_eq_getElem hr
  generalize task.grammar.rules[r] = rule at hrule
  have hsame := (eval_tracked hg hsubject (c := c) apply checked (hg.body_lt hrule)
    (Nat.le_refl _)).tracks p #[] s hp hinv
    ⟨fun s' r' q hle hinv' hv => (happly s' r' q hle hinv' ⟨rule, hrule, hv⟩).1,
      fun s' r' q hle hinv' hv => (happly s' r' q hle hinv' ⟨rule, hrule, hv⟩).2⟩
  rw [Checked.body, hrule, body_eq task apply active p s hrule, Option.bind_eq_bind,
    Option.bind_some]
  generalize Checked.eval task checked active task.grammar.atoms.size rule.body p #[] s = x
    at hsame ⊢
  generalize task.eval apply active task.grammar.atoms.size rule.body p #[] s = y at hsame ⊢
  cases hsame with
  | @ok m s₁ hm =>
      obtain ⟨stop, out, splice⟩ := m
      cases splice with
      | none => rfl
      | some mark =>
          have htree : out[mark.1]? = some mark.2 := hm mark.1 mark.2 rfl
          change (guard (out[mark.1]? = some mark.2) >>= fun _ =>
              some (Outcome.ok (Found.mk mark.2 stop), s₁)) =
            some (Outcome.ok (Found.mk (out[mark.1]?.getD (.node rule.name out.toList)) stop), s₁)
          rw [guard_eq htree, htree]
          rfl
  | backtrack => rfl
  | abort => rfl

end Operators

end Contract

namespace Reading

open Checked

variable {ω : Type} {task : Task ω} {L : Reading task} {active : List Call} {r : RuleId} {p : Nat}

/-- A rule grows in range if its body is evaluated in range, and each longer seed leaves fewer
rounds to go. -/
theorem checked_grow_eq {abort : Session ω → Prop} {body : Session ω → Outcome Found × Session ω}
    {checkedBody : Session ω → Option (Reply ω Found)} {σ : Call → Option Found}
    (hmay : L.May active r p) (hbody : ∀ s, L.Holds (⟨r, p⟩ :: active) s → Meets abort
      (fun o s' => L.Holds (⟨r, p⟩ :: active) s' ∧ Framed (⟨r, p⟩ :: active) s s' ∧
        Body task.grammar task.subject (L.Answered (⟨r, p⟩ :: active) s') r p o) (body s))
    (hchecked : ∀ s, L.Holds (⟨r, p⟩ :: active) s → checkedBody s = some (body s))
    {rounds : Nat} {s : Session ω} (h : L.Growing active σ r p s)
    (hrounds : growthBound task.subject.length p (seedsOf s ⟨r, p⟩) ≤ rounds) :
    Checked.grow task active r p checkedBody rounds s =
      some (task.grow active r p body rounds s) := by
  induction rounds generalizing s with
  | zero => exact absurd (Nat.lt_of_lt_of_le (growthBound_pos _ _ _) hrounds) (Nat.lt_irrefl 0)
  | succ rounds ih =>
      have hsettled := settle_meets hmay h (hbody s h.holds)
      rw [Checked.grow, Task.grow, hchecked s h.holds, Option.bind_eq_bind, Option.bind_some]
      cases hsettle : task.settle active r p (body s) with
      | done outcome s' => rfl
      | again s' =>
          rw [hsettle] at hsettled
          obtain ⟨h', hless⟩ := h.again hmay hsettled
          exact ih h' (Nat.le_of_lt_succ (Nat.lt_of_lt_of_le hless hrounds))

theorem within_of_applied {room : Nat} {s : Session ω} {result : Outcome Found × Session ω}
    (hmay : L.May active r p) (h : L.Applied room active s r p result) :
    within task.subject.length p Found.stop result = some result := by
  obtain ⟨f | f | e, s'⟩ := result
  · exact if_pos (answered_bounded active s' r p f (L.inRange hmay).2 h.2.2)
  · rfl
  · rfl

/-- A rule that may be applied is applied in range, whatever the session. -/
theorem checked_apply_eq (hg : task.grammar.Ready) {input : Input}
    (hsubject : task.subject = .ofInput input) {room : Nat} :
    ∀ {active : List Call} {s : Session ω} {r : RuleId} {p : Nat}, L.Holds active s →
      L.Admits active r p →
      Checked.apply task room active r p s = some (task.apply room active r p s) := by
  induction room with
  | zero =>
      intro active s r p _ _
      rfl
  | succ room ih =>
      intro active s r p h hadmits
      have happlied : L.Applied (room + 1) active s r p (task.apply (room + 1) active r p s) :=
        apply_meets hg.toWellFormed hsubject h hadmits
      have hwithin := within_of_applied hadmits.1 happlied
      rw [Task.apply_succ] at hwithin ⊢
      rw [Checked.apply, guard_eq (L.inRange hadmits.1)]
      simp only [Option.bind_eq_bind, Option.bind_some, MemoTable.lookup_fst]
      cases he : s.memo.get? p r with
      | some e =>
          rw [he] at hwithin
          exact hwithin
      | none =>
          obtain ⟨hr, hp⟩ := L.inRange hadmits.1
          have hfresh := h.notMem_of_get?_eq_none he
          obtain ⟨hlook, -⟩ := h.of_get? { s with memo := (s.memo.lookup p r).2 }
            (s.memo.get?_lookup p r) h.log
          obtain ⟨hgrowing, -, hrounds⟩ := growing_entered hlook hadmits
            ((s.memo.get?_lookup p r p r).trans he)
          have happly : ∀ {s' r' q}, L.Holds (⟨r, p⟩ :: active) s' →
              L.Admits (⟨r, p⟩ :: active) r' q →
              L.Applied room (⟨r, p⟩ :: active) s' r' q
                (task.apply room (⟨r, p⟩ :: active) r' q s') :=
            apply_meets hg.toWellFormed hsubject
          have hgrow := checked_grow_eq hadmits.1
            (body_meets hg.toWellFormed hsubject hadmits hfresh happly) (fun s' h' =>
              Contract.checked_body_eq (c := L.contract room (⟨r, p⟩ :: active)) hg
                hsubject hr hp h'
                fun s'' r' q _ hinv hv =>
                  ⟨happly hinv (hadmits.visits hg.toWellFormed hsubject hfresh hinv hv),
                    ih hinv (hadmits.visits hg.toWellFormed hsubject hfresh hinv hv)⟩)
            hgrowing (Nat.le_of_eq hrounds)
          rw [he] at hwithin
          dsimp only at hwithin ⊢
          rw [hgrow]
          exact hwithin

end Reading

namespace Checked

variable {ω : Type} {g : Grammar}

theorem located_eq {subject : Subject} {result : Except ParseError ParseTree}
    (h : ∀ e, result = .error e → ∀ position ∈ e.position?, position ≤ subject.length) :
    located subject result = some result := by
  cases result with
  | ok tree => rfl
  | error e =>
      rw [located, guard_eq (h e rfl)]
      rfl

theorem position_le_of_conclude {subject : Subject} {abort : Session ω → Prop}
    {P : Option Found → Session ω → Prop} {result : Outcome Found × Session ω}
    (hmeets : Meets abort P result) (hreported : Reported g subject Found.stop result)
    {e : ParseError} (he : Parser.conclude subject result = .error e) :
    ∀ position ∈ e.position?, position ≤ subject.length := by
  obtain ⟨found | f | e', s⟩ := result
  · rw [Parser.conclude] at he
    split at he
    · contradiction
    · cases he
      intro position hposition
      cases hposition
      split
      · exact hreported.1
      · exact hreported.2.furthest.position_le
  · cases he
    intro position hposition
    cases hposition
    exact (hreported.2.furthest.combine hreported.1).position_le
  · cases he
    intro position hposition
    cases e with
    | failed | incomplete => exact absurd hmeets.1 Bool.false_ne_true
    | _ => contradiction

/-- A parse of a grammar in order stays in range. -/
theorem run_eq {p : Parser} (hg : p.grammar.Ready) (observer : Observer ω) (log : ω)
    {rule : RuleId} (hrule : rule < p.grammar.rules.size) (input : Input) :
    run p observer log rule input = some (p.run observer log rule input) := by
  cases hrefusal : Parser.refusal p.grammar p.config input with
  | some e => simp only [run, Parser.run, hrefusal]
  | none =>
      let L := derivedReading hg.toWellFormed observer input (fun _ => True) fun _ => trivial
      have hadmits : L.Admits [] rule 0 :=
        ⟨⟨hrule, Nat.zero_le _⟩, fun _ hc => absurd hc List.not_mem_nil⟩
      have happly : evaluate p.reset observer log rule input =
          some (attempt p.grammar input observer log rule p.config.maxDepth) :=
        Reading.checked_apply_eq hg rfl
          (Reading.holds_start (.here 0) (show L.Log log from trivial)) hadmits
      have hmeets : Meets _ _ (attempt p.grammar input observer log rule p.config.maxDepth) :=
        apply_nil_derived hg.toWellFormed hrule
          (Nat.zero_le input.length) observer p.config.maxDepth
          (.here 0) log
      have hlocated := located_eq fun e => position_le_of_conclude hmeets
        (attempt_reported hg.toWellFormed hrule observer log p.config.maxDepth)
      rw [Parser.run_eq_attempt hrefusal]
      simp only [run, hrefusal, happly, hlocated, Option.bind_eq_bind, Option.bind_some]
      rfl

/-- Tables are accepted exactly if they are in order and no left recursion is hopeless. Looking
for such a recursion stays in range if they are in order; the analysis and every parse do if
they are accepted. -/
theorem ofParts_safe (atoms : Array Atom) (rules : Array Rule) (root : RuleId) :
    ((∃ g, Grammar.ofParts atoms rules root = .ok g) ↔
      Grammar.InOrder atoms rules root ∧
        (Grammar.compiled atoms rules root).leftEdge.unresolvable = none) ∧
    (Grammar.InOrder atoms rules root →
      (leftEdge (Grammar.compiled atoms rules root)).bind unresolvable =
        some (Grammar.compiled atoms rules root).leftEdge.unresolvable) ∧
    ∀ g, Grammar.ofParts atoms rules root = .ok g →
      (leftEdge g).bind warnings = some g.warnings ∧
      ∀ (p : Parser), p.grammar = g → ∀ {ω : Type} (observer : Observer ω) (log : ω)
        (rule : RuleId) (input : Input), rule < g.rules.size →
        run p observer log rule input = some (p.run observer log rule input) := by
  refine ⟨?_, fun horder => ?_, fun g h => ?_⟩
  · constructor
    · rintro ⟨g, h⟩
      obtain ⟨horder, hnone, -⟩ := Grammar.ofParts_eq_ok_iff.1 h
      exact ⟨horder, hnone⟩
    · rintro ⟨horder, hnone⟩
      exact ⟨_, Grammar.ofParts_eq_ok_iff.2 ⟨horder, hnone, rfl⟩⟩
  · rw [leftEdge_eq horder.ready, Option.bind_some, unresolvable_eq (sized_leftEdge horder.ready)]
  · obtain ⟨horder, -, rfl⟩ := Grammar.ofParts_eq_ok_iff.1 h
    refine ⟨?_, fun p hp _ observer log rule input hrule => ?_⟩
    · rw [leftEdge_eq horder.ready, Option.bind_some, warnings_eq (sized_leftEdge horder.ready),
        Grammar.warnings]
    · have hready : p.grammar.Ready := hp ▸ horder.ready
      exact run_eq hready observer log (hp ▸ hrule) input

open Seedling.Parser (bracketed)

theorem ofParts_bracketed : Grammar.ofParts bracketed.atoms bracketed.rules 0 = .ok bracketed := by
  have hok : (Grammar.ofParts bracketed.atoms bracketed.rules 0).isOk = true := by decide +kernel
  cases h : Grammar.ofParts bracketed.atoms bracketed.rules 0 with
  | error e =>
      rw [h] at hok
      contradiction
  | ok g =>
      rw [(Grammar.ofParts_eq_ok_iff.1 h).2.2]
      rfl

/-- The second unit is the sum that stands between its brackets. -/
theorem run_bracketed :
    Grammar.ofParts bracketed.atoms bracketed.rules 0 = .ok bracketed ∧
    (leftEdge bracketed).bind unresolvable = some none ∧
    (leftEdge bracketed).bind warnings = some bracketed.warnings ∧
    run (.ofGrammar bracketed {}) .silent () 0 (.text "1+(1)") =
      some ((Parser.ofGrammar bracketed {}).run .silent () 0 (.text "1+(1)")) ∧
    ((Parser.ofGrammar bracketed {}).parse (.text "1+(1)")).1.toOption =
      some (.node "sum" [.node "sum" [.node "unit" [.leaf "'1'" "1" ⟨0, 1, 1⟩]],
        .leaf "'+'" "+" ⟨1, 1, 2⟩, .node "sum" [.node "unit" [.leaf "'1'" "1" ⟨3, 1, 4⟩]]]) := by
  obtain ⟨haccepted, hchecked, hsafe⟩ := ofParts_safe bracketed.atoms bracketed.rules 0
  obtain ⟨horder, hnone⟩ := haccepted.1 ⟨_, ofParts_bracketed⟩
  obtain ⟨hwarnings, hrun⟩ := hsafe _ ofParts_bracketed
  refine ⟨ofParts_bracketed, ?_, hwarnings,
    hrun (.ofGrammar bracketed {}) rfl .silent () 0 _ (by decide),
    by decide +kernel⟩
  rw [hnone] at hchecked
  exact hchecked horder

end Checked

end Seedling
