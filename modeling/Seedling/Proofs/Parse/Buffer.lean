import Seedling.Proofs.Parse.Pieces
import Seedling.Proofs.Parse.Replay

/-!
Evaluation onto one buffer. All trees of a rule's body are pushed onto the same buffer, and
whoever goes on after a failure has to cut off what the failed part has left there: a sequence,
a choice and a repetition each cut at the marks that they have set. A splice is an index into
the buffer, set before more is pushed and perhaps cut off again.

Main statement: a match leaves what was in the buffer as it was and puts its own piece behind
it, with the splice in that piece; after a failure the buffer is what it was. So rules come to
the same trees as by evaluation piece by piece, where a failure has no trees.
-/

namespace Seedling

open Unlimited

namespace Buffered

variable {ω : Type}

structure Extent where
  stop : Nat
  splice : Option Nat

abbrev Reply (ω : Type) := Outcome Extent × Array ParseTree × Session ω

abbrev Eval (ω : Type) := AtomId → Nat → Array ParseTree → Session ω → Reply ω

/-- A sequence that breaks off cuts the buffer at the mark it started from. -/
def sequence (eval : Eval ω) (mark : Nat) :
    List AtomId → Nat → Option Nat → Array ParseTree → Session ω → Reply ω
  | [], pos, splice, out, s => (.ok ⟨pos, splice⟩, out, s)
  | a :: rest, pos, splice, out, s =>
      match eval a pos out s with
      | (.ok m, out, s) => sequence eval mark rest m.stop (m.splice.or splice) out s
      | (.backtrack f, out, s) => (.backtrack f, out.take mark, s)
      | (.abort e, out, s) => (.abort e, out.take mark, s)

/-- The buffer is cut at the mark before the next alternative. -/
def choice (task : Task ω) (eval : Eval ω) (active : List Call) (id : AtomId) (pos mark : Nat) :
    Nat → List AtomId → Failure → Array ParseTree → Session ω → Reply ω
  | _, [], failure, out, s => (.backtrack failure, out, s)
  | index, a :: rest, failure, out, s =>
      match eval a pos out (s.note task.observer active (.tries id index pos)) with
      | (.ok m, out, s) =>
          (.ok m, out, s.note task.observer active (.tried id index pos (some m.stop)))
      | (.backtrack f, out, s) =>
          choice task eval active id pos mark (index + 1) rest (failure.combine f) (out.take mark)
            (s.note task.observer active (.tried id index pos none))
      | (.abort e, out, s) => (.abort e, out, s)

/-- A match that fails is cut off by itself; if the repetition fails with it, so are those
before. -/
def repetition (eval : Eval ω) (atom : AtomId) (min : Nat) (max : Option Nat) (start : Nat) :
    Nat → Nat → Nat → Option Nat → Array ParseTree → Session ω → Reply ω
  | 0, _, pos, splice, out, s => (.ok ⟨pos, splice⟩, out, s)
  | rounds + 1, count, pos, splice, out, s =>
      if isFull max count then (.ok ⟨pos, splice⟩, out, s)
      else
        let mark := out.size
        match eval atom pos out s with
        | (.ok m, out, s) =>
            if pos < m.stop then
              repetition eval atom min max start rounds (count + 1) m.stop
                (m.splice.or splice) out s
            else (.ok ⟨m.stop, m.splice.or splice⟩, out, s)
        | (.backtrack f, out, s) =>
            let out := out.take mark
            if count < min then (.backtrack f, out.take start, s) else (.ok ⟨pos, splice⟩, out, s)
        | (.abort e, out, s) => (.abort e, out.take start, s)

/-- A lookahead has a buffer of its own, which is thrown away. -/
def lookahead (eval : Eval ω) (atom : AtomId) (positive : Bool) (pos : Nat) (out : Array ParseTree)
    (s : Session ω) : Reply ω :=
  match eval atom pos #[] s, positive with
  | (.ok _, _, after), true => (.ok ⟨pos, none⟩, out, { after with furthest := s.furthest })
  | (.ok _, _, after), false => (.backtrack (.here pos), out, { after with furthest := s.furthest })
  | (.backtrack f, _, after), true => (.backtrack f, out, after)
  | (.backtrack _, _, after), false => (.ok ⟨pos, none⟩, out, { after with furthest := s.furthest })
  | (.abort e, _, after), _ => (.abort e, out, after)

def terminal (task : Task ω) (id : AtomId) (pos : Nat) (out : Array ParseTree) (s : Session ω) :
    Reply ω :=
  match task.subject.matchTerminal task.grammar id pos with
  | some (stop, leaf) => (.ok ⟨stop, none⟩, out.push leaf, s)
  | none =>
      let failure := Failure.expecting pos (task.grammar.label id)
      (.backtrack failure, out, s.fail failure)

def operator (task : Task ω) (apply : Apply ω) (eval : Eval ω) (active : List Call) (id : AtomId)
    (atom : Atom) (pos : Nat) (out : Array ParseTree) (s : Session ω) : Reply ω :=
  match atom with
  | .rule rule =>
      match apply rule pos s with
      | (.ok found, s) => (.ok ⟨found.stop, none⟩, out.push found.tree, s)
      | (.backtrack f, s) => (.backtrack f, out, s)
      | (.abort e, s) => (.abort e, out, s)
  | .literal _ => terminal task id pos out s
  | .pattern _ => terminal task id pos out s
  | .token _ => terminal task id pos out s
  | .sequence atoms => sequence eval out.size atoms pos none out s
  | .choice atoms => choice task eval active id pos out.size 0 atoms (.here pos) out s
  | .repetition a min max =>
      repetition eval a min max out.size (task.subject.length - pos + 1) 0 pos none out s
  | .lookahead a positive => lookahead eval a positive pos out s
  | .discard a =>
      match eval a pos #[] s with
      | (.ok m, _, s) => (.ok ⟨m.stop, none⟩, out, s)
      | (.backtrack f, _, s) => (.backtrack f, out, s)
      | (.abort e, _, s) => (.abort e, out, s)
  | .splice a =>
      let mark := out.size
      match eval a pos out s with
      | (.ok m, out, s) =>
          (.ok { m with splice := if out.size = mark + 1 then some mark else m.splice }, out, s)
      | (.backtrack f, out, s) => (.backtrack f, out, s)
      | (.abort e, out, s) => (.abort e, out, s)

def noteAtom (task : Task ω) (active : List Call) (id : AtomId) (pos : Nat) : Reply ω → Reply ω
  | (.ok m, out, s) => (.ok m, out, s.note task.observer active (.atom id pos (some m.stop)))
  | (.backtrack f, out, s) => (.backtrack f, out, s.note task.observer active (.atom id pos none))
  | (.abort e, out, s) => (.abort e, out, s)

def eval (task : Task ω) (apply : Apply ω) (active : List Call) : Nat → Eval ω
  | 0, _, pos, out, s => (.backtrack (.here pos), out, s)
  | bound + 1, id, pos, out, s =>
      match task.grammar.atoms[id]? with
      | none => (.backtrack (.here pos), out, s)
      | some atom =>
          noteAtom task active id pos
            (operator task apply (eval task apply active bound) active id atom pos out s)

/-- A splice replaces the node if there is a child at that place. -/
def treeOf (name : String) (children : Array ParseTree) : Option Nat → ParseTree
  | some i => if h : i < children.size then children[i] else .node name children.toList
  | none => .node name children.toList

def body (task : Task ω) (apply : Apply ω) (active : List Call) (rule : RuleId) (pos : Nat)
    (s : Session ω) : Outcome Found × Session ω :=
  match task.grammar.rules[rule]? with
  | none => (.backtrack (.here pos), s)
  | some r =>
      match eval task apply active task.grammar.atoms.size r.body pos #[] s with
      | (.ok m, children, s) => (.ok ⟨treeOf r.name children m.splice, m.stop⟩, s)
      | (.backtrack f, _, s) => (.backtrack f, s)
      | (.abort e, _, s) => (.abort e, s)

def apply (task : Task ω) : Nat → List Call → Apply ω
  | 0, active, _, _, s =>
      (.abort (.recursionLimitExceeded (active.length + 1) active.length), s)
  | room + 1, active, rule, pos, s =>
      let (known, memo) := s.memo.lookup pos rule
      let s := { s with memo }
      match known with
      | some entry => task.replay active rule pos entry s
      | none =>
          let inside := ⟨rule, pos⟩ :: active
          task.grow active rule pos (body task (apply task room inside) inside rule pos)
            (task.subject.length - pos + 2) (task.entered active rule pos s)

/-! ### Marks -/

/-- A match with its trees in the buffer; a failure with the buffer as it was. -/
def leave (out : Array ParseTree) : Outcome Matched × Session ω → Reply ω
  | (.ok m, s) => (.ok ⟨m.stop, m.splice⟩, m.out, s)
  | (.backtrack f, s) => (.backtrack f, out, s)
  | (.abort e, s) => (.abort e, out, s)

theorem take_append_size (out trees : Array ParseTree) : (out ++ trees).take out.size = out := by
  simp

theorem take_size (out : Array ParseTree) : out.take out.size = out := by
  simp

section Marks

variable {task : Task ω} {buffered : Eval ω} {eval : Seedling.Eval ω} {pieces : Pieces.Eval ω}
  (hleave : ∀ a p out s, buffered a p out s = leave out (eval a p out s))
  (hlaid : Pieces.Laid eval pieces)

include hlaid in
theorem exists_append {a : AtomId} {p : Nat} {out : Array ParseTree} {s s' : Session ω}
    {m : Matched} (h : eval a p out s = (.ok m, s')) : ∃ trees, m.out = out ++ trees := by
  rw [hlaid] at h
  rcases hpiece : pieces a p s with ⟨x | f | e, s''⟩ <;> rw [hpiece] at h <;> cases h
  exact ⟨x.trees.toArray, rfl⟩

include hleave hlaid in
theorem sequence_leave (atoms : List AtomId) (p : Nat) (splice : Option Nat)
    (out trees : Array ParseTree) (s : Session ω) :
    sequence buffered out.size atoms p splice (out ++ trees) s =
      leave out (Task.sequence eval atoms p (out ++ trees) splice s) := by
  induction atoms generalizing p splice trees s with
  | nil => rfl
  | cons a rest ih =>
      rw [sequence, Task.sequence, hleave]
      -- The items push behind `out`: the trees behind the mark grow, what is before it stays.
      rcases hresult : eval a p (out ++ trees) s with ⟨m | f | e, s'⟩ <;> dsimp only [leave]
      · obtain ⟨more, hmore⟩ := exists_append hlaid hresult
        rw [hmore, Array.append_assoc]
        exact ih m.stop (m.splice.or splice) (trees ++ more) s'
      · rw [take_append_size]
      · rw [take_append_size]

include hleave in
theorem choice_leave (active : List Call) (id : AtomId) (p index : Nat) (atoms : List AtomId)
    (failure : Failure) (out : Array ParseTree) (s : Session ω) :
    choice task buffered active id p out.size index atoms failure out s =
      leave out (task.choice eval active id p out index atoms failure s) := by
  induction atoms generalizing index failure s with
  | nil => rfl
  | cons a rest ih =>
      rw [choice, choice_cons, alternative_eq, hleave]
      obtain ⟨m | f | e, s'⟩ := eval a p out (s.note task.observer active (.tries id index p))
      · rfl
      · dsimp only [leave]
        rw [take_size]
        exact ih (index + 1) (failure.combine f) _
      · rfl

include hleave hlaid in
theorem repetition_leave (a : AtomId) (min : Nat) (max : Option Nat) (rounds count p : Nat)
    (splice : Option Nat) (out trees : Array ParseTree) (s : Session ω) :
    repetition buffered a min max out.size rounds count p splice (out ++ trees) s =
      leave out (Task.repetition eval a min max rounds count p (out ++ trees) splice s) := by
  induction rounds generalizing count p splice trees s with
  | zero => rfl
  | succ rounds ih =>
      rw [repetition, Task.repetition, ← isFull, hleave]
      split
      · rfl
      rcases hresult : eval a p (out ++ trees) s with ⟨m | f | e, s'⟩ <;> dsimp only [leave]
      · split
        · obtain ⟨more, hmore⟩ := exists_append hlaid hresult
          rw [hmore, Array.append_assoc]
          exact ih (count + 1) m.stop (m.splice.or splice) (trees ++ more) s'
        · rfl
      -- The failed match has been cut off by itself, so that what is left is what was there
      -- before it.
      · rw [take_size, take_append_size]
        split <;> rfl
      · rw [take_append_size]

include hleave in
theorem lookahead_leave (a : AtomId) (positive : Bool) (p : Nat) (out : Array ParseTree)
    (s : Session ω) :
    lookahead buffered a positive p out s = leave out (Task.lookahead eval a positive p out s) := by
  unfold lookahead Task.lookahead
  rw [hleave]
  obtain ⟨_ | _ | _, _⟩ := eval a p #[] s <;> cases positive <;> rfl

theorem terminal_leave (id : AtomId) (p : Nat) (out : Array ParseTree) (s : Session ω) :
    terminal task id p out s = leave out (task.terminal id p out s) := by
  rw [terminal, Task.terminal]
  cases task.subject.matchTerminal task.grammar id p <;> rfl

include hleave hlaid in
theorem operator_leave (apply : Apply ω) (active : List Call) (id : AtomId) (atom : Atom) (p : Nat)
    (out : Array ParseTree) (s : Session ω) :
    operator task apply buffered active id atom p out s =
      leave out (task.operator apply eval active id atom p out s) := by
  cases atom with
  | rule r =>
      rw [operator, Task.operator]
      obtain ⟨_ | _ | _, _⟩ := apply r p s <;> rfl
  | literal | pattern | token => exact terminal_leave id p out s
  | sequence atoms =>
      have h := sequence_leave hleave hlaid atoms p none out #[] s
      rwa [Array.append_empty] at h
  | choice atoms => exact choice_leave hleave active id p 0 atoms (.here p) out s
  | repetition a min max =>
      have h := repetition_leave hleave hlaid a min max
        (task.subject.length - p + 1) 0 p none out #[] s
      rwa [Array.append_empty] at h
  | lookahead a positive => exact lookahead_leave hleave a positive p out s
  | discard a =>
      rw [operator, Task.operator, hleave]
      obtain ⟨_ | _ | _, _⟩ := eval a p #[] s <;> rfl
  | splice a =>
      rw [operator, Task.operator, hleave]
      obtain ⟨_ | _ | _, _⟩ := eval a p out s <;> rfl

end Marks

/-! ### Evaluation -/

/-- What an evaluation does to the buffer, next to what it comes to by itself: a match puts its
piece behind what is there, with the splice in that piece, and a failure changes nothing. -/
inductive Pushes (out : Array ParseTree) : Reply ω → Outcome Piece × Session ω → Prop where
  | ok {x : Piece} {s : Session ω} : x.Marks →
      Pushes out (.ok ⟨x.stop, x.splice.map (· + out.size)⟩, out ++ x.trees.toArray, s) (.ok x, s)
  | backtrack {f : Failure} {s : Session ω} : Pushes out (.backtrack f, out, s) (.backtrack f, s)
  | abort {e : ParseError} {s : Session ω} : Pushes out (.abort e, out, s) (.abort e, s)

theorem Pushes.of_ok {out out' : Array ParseTree} {m : Extent} {s : Session ω}
    {piece : Outcome Piece × Session ω} (h : Pushes out (.ok m, out', s) piece) :
    out.toList <+: out'.toList ∧ ∀ i, m.splice = some i → out.size ≤ i ∧ i < out'.size := by
  cases h with
  | ok hmarks =>
      refine ⟨by simp, fun i hi => ?_⟩
      obtain ⟨j, hj, rfl⟩ := Option.map_eq_some_iff.1 hi
      have hlt := hmarks j hj
      simp only [Array.size_append, List.size_toArray]
      omega

theorem Pushes.of_backtrack {out out' : Array ParseTree} {f : Failure} {s : Session ω}
    {piece : Outcome Piece × Session ω} (h : Pushes out (.backtrack f, out', s) piece) :
    out' = out := by
  cases h
  rfl

section Evaluation

variable (task : Task ω) (rules : Apply ω) (active : List Call)

/-- The marks are right: what failed is cut off, and nothing else. -/
theorem eval_leave (bound : Nat) (id : AtomId) (p : Nat) (out : Array ParseTree) (s : Session ω) :
    eval task rules active bound id p out s =
      leave out (task.eval rules active bound id p out s) := by
  induction bound generalizing id p out s with
  | zero => rfl
  | succ bound ih =>
      rw [eval, Task.eval]
      cases task.grammar.atoms[id]? with
      | none => rfl
      | some atom =>
          dsimp only
          rw [operator_leave ih (Pieces.eval_onto task rules active bound)]
          obtain ⟨_ | _ | _, _⟩ :=
            task.operator rules (task.eval rules active bound) active id atom p out s <;> rfl

theorem eval_pushes (bound : Nat) (id : AtomId) (p : Nat) (out : Array ParseTree) (s : Session ω) :
    Pushes out (eval task rules active bound id p out s)
      (Pieces.eval task rules active bound id p s) := by
  have hmarks := Pieces.eval_marks task rules active bound id p s
  rw [eval_leave, Pieces.eval_onto]
  generalize Pieces.eval task rules active bound id p s = piece at hmarks ⊢
  obtain ⟨x | f | e, s'⟩ := piece
  · change Pushes out (.ok ⟨x.stop, (x.splice.map (· + out.size)).or none⟩, _, s') _
    rw [Option.or_none]
    exact .ok hmarks
  · exact .backtrack
  · exact .abort

theorem treeOf_eq (name : String) (children : Array ParseTree) (splice : Option Nat) :
    treeOf name children splice = (splice.bind (children[·]?)).getD
      (.node name children.toList) := by
  cases splice with
  | none => rfl
  | some i =>
      rw [treeOf, Option.bind_some]
      split
      · rename_i hi
        rw [Array.getElem?_eq_getElem hi, Option.getD_some]
      · rename_i hi
        rw [Array.getElem?_eq_none (Nat.le_of_not_lt hi), Option.getD_none]

theorem body_leave (r : RuleId) (p : Nat) (s : Session ω) :
    body task rules active r p s = task.body rules active r p s := by
  rw [body, Task.body]
  cases task.grammar.rules[r]? with
  | none => rfl
  | some rule =>
      dsimp only
      rw [eval_leave]
      obtain ⟨m | f | e, s'⟩ := task.eval rules active task.grammar.atoms.size rule.body p #[] s
      · dsimp only [leave]
        rw [treeOf_eq]
      · rfl
      · rfl

/-- The tree of a rule is made of the piece that its body comes to; a splice is never out of
range. -/
theorem body_tree {r : RuleId} {rule : Rule} {p : Nat} {s s' : Session ω} {found : Found}
    (hrule : task.grammar.rules[r]? = some rule)
    (h : body task rules active r p s = (.ok found, s')) :
    ∃ x, Pieces.eval task rules active task.grammar.atoms.size rule.body p s = (.ok x, s') ∧
      found.stop = x.stop ∧
      (x.splice = none ∧ found.tree = .node rule.name x.trees ∨
        ∃ i, x.splice = some i ∧ x.trees[i]? = some found.tree) := by
  have hpushes := eval_pushes task rules active task.grammar.atoms.size rule.body p #[] s
  rw [body, hrule] at h
  dsimp only at h
  generalize eval task rules active task.grammar.atoms.size rule.body p #[] s = reply at h hpushes
  generalize Pieces.eval task rules active task.grammar.atoms.size rule.body p s = piece
    at hpushes ⊢
  cases hpushes with
  | backtrack | abort => cases h
  | @ok x s'' hmarks =>
      cases h
      refine ⟨x, rfl, rfl, ?_⟩
      cases hsplice : x.splice with
      | none => exact .inl ⟨rfl, by simp [treeOf]⟩
      | some i =>
          have hi : i < x.trees.length := hmarks i hsplice
          refine .inr ⟨i, rfl, ?_⟩
          simp [treeOf, hi]

end Evaluation

/-- Rules come to the same, with one buffer for each body. -/
theorem apply_leave (task : Task ω) (room : Nat) (active : List Call) :
    apply task room active = task.apply room active := by
  induction room generalizing active with
  | zero => rfl
  | succ room ih =>
      funext r p s
      rw [Task.apply_succ, apply]
      simp only [MemoTable.lookup_fst]
      cases s.memo.get? p r with
      | some entry => rfl
      | none =>
          have hbody : body task (apply task room (⟨r, p⟩ :: active)) (⟨r, p⟩ :: active) r p =
              task.body (task.apply room (⟨r, p⟩ :: active)) (⟨r, p⟩ :: active) r p := by
            funext s
            rw [ih, body_leave]
          dsimp only
          rw [hbody]

/-- Evaluation only pushes, and a failure leaves no trace in the buffer. A match keeps what was
there in front and has its splice, if any, behind it; what it pushes is its piece, to which only
parts that matched have contributed. In a rule's body no splice is out of range, and the tree is
made of the body's piece. So rules come to what they come to in a parse. -/
theorem output_framed (task : Task ω) (room : Nat) (active : List Call) :
    (∀ bound id p out s m out' s',
      eval task (apply task room active) active bound id p out s = (.ok m, out', s') →
      out.toList <+: out'.toList ∧ ∀ i, m.splice = some i → out.size ≤ i ∧ i < out'.size) ∧
    (∀ bound id p out s f out' s',
      eval task (apply task room active) active bound id p out s = (.backtrack f, out', s') →
      out' = out) ∧
    (∀ bound id p out s,
      eval task (apply task room active) active bound id p out s =
        leave out (task.eval (task.apply room active) active bound id p out s) ∧
      Pushes out (eval task (apply task room active) active bound id p out s)
        (Pieces.eval task (apply task room active) active bound id p s)) ∧
    (∀ r rule p s found s', task.grammar.rules[r]? = some rule →
      body task (apply task room active) active r p s = (.ok found, s') →
      ∃ x, Pieces.eval task (apply task room active) active task.grammar.atoms.size rule.body p s =
          (.ok x, s') ∧
        found.stop = x.stop ∧
        (x.splice = none ∧ found.tree = .node rule.name x.trees ∨
          ∃ i, x.splice = some i ∧ x.trees[i]? = some found.tree)) ∧
    apply task room active = task.apply room active := by
  have hpushes := eval_pushes task (apply task room active) active
  refine ⟨?_, ?_, ?_, ?_, apply_leave task room active⟩
  · intro bound id p out s m out' s' h
    have hmatch := hpushes bound id p out s
    rw [h] at hmatch
    exact hmatch.of_ok
  · intro bound id p out s f out' s' h
    have hfailure := hpushes bound id p out s
    rw [h] at hfailure
    exact hfailure.of_backtrack
  · intro bound id p out s
    refine ⟨?_, hpushes bound id p out s⟩
    rw [eval_leave, apply_leave]
  · intro r rule p s found s' hrule h
    exact body_tree task (apply task room active) active hrule h

/-- `s: ('a' 'b')* &'a' 'a' 'c' | ('a' 'b')* <'a'>`. -/
def stumbling : Grammar where
  atoms := #[.literal "a", .literal "b", .sequence [0, 1], .repetition 2 0 none, .lookahead 0 true,
    .literal "c", .sequence [3, 4, 0, 5], .splice 0, .sequence [3, 7], .choice [6, 8]]
  rules := #[⟨"s", 9⟩]
  root := 0
  matchers := Array.replicate 10 none

set_option maxRecDepth 2000 in
theorem ofParts_stumbling : Grammar.ofParts stumbling.atoms stumbling.rules 0 = .ok stumbling := by
  with_unfolding_all rfl

def stumblingTask : Task Unit := ⟨stumbling, .ofInput (.text "aba"), .silent⟩

def stumblingStart : Session Unit := ⟨.empty, .here 0, ()⟩

/-- The evaluation of an atom of `stumbling` at the start of `aba`, with a tree in the buffer. -/
def stumblingEval (id : AtomId) : Reply Unit :=
  eval stumblingTask (apply stumblingTask 1 []) [] 10 id 0 #[.node "before" []] stumblingStart

/-- In `aba` both alternatives begin a second `ab` that fails, and the first one fails at its
end. It leaves no trace: the choice then comes to three trees behind the one that was there, the
last of them the splice; and the rule comes to this one alone. -/
theorem output_framed_stumbling :
    Grammar.ofParts stumbling.atoms stumbling.rules 0 = .ok stumbling ∧
    (∃ f s, stumblingEval 6 = (.backtrack f, #[.node "before" []], s)) ∧
    (∃ m out s, stumblingEval 9 = (.ok m, out, s) ∧ m.splice = some 3 ∧
      [.node "before" []] <+: out.toList ∧ 3 < out.size) ∧
    ∃ found s, body stumblingTask (apply stumblingTask 1 []) [] 0 0 stumblingStart =
      (.ok found, s) ∧
      ∃ x, Pieces.eval stumblingTask
        (apply stumblingTask 1 []) [] 10 9 0 stumblingStart = (.ok x, s) ∧
        x.splice = some 2 ∧ x.trees[2]? = some found.tree := by
  obtain ⟨hok, hno, -, hbody, -⟩ := output_framed stumblingTask 1 []
  refine ⟨ofParts_stumbling, ?_, ?_, ?_⟩
  · have hfails : (stumblingEval 6).1.result?.map Option.isSome = some false := by decide +kernel
    rcases hresult : stumblingEval 6 with ⟨m | f | e, out, s⟩ <;> rw [hresult] at hfails
    · cases hfails
    · rw [hno _ _ _ _ _ _ _ _ hresult]
      exact ⟨f, s, rfl⟩
    · cases hfails
  · have hsplice : (stumblingEval 9).1.result?.map (Option.map Extent.splice) =
        some (some (some 3)) := by
      decide +kernel
    rcases hresult : stumblingEval 9 with ⟨m | f | e, out, s⟩ <;> rw [hresult] at hsplice
    · have hm : m.splice = some 3 := Option.some.inj (Option.some.inj hsplice)
      obtain ⟨hfront, hrange⟩ := hok _ _ _ _ _ _ _ _ hresult
      exact ⟨m, out, s, rfl, hm, hfront, (hrange 3 hm).2⟩
    · cases hsplice
    · cases hsplice
  · have hmatches :
        (body stumblingTask (apply stumblingTask 1 []) [] 0 0 stumblingStart).1.result?.map
        Option.isSome = some true := by
      decide +kernel
    have hsplice : (Pieces.eval stumblingTask (apply stumblingTask 1 []) [] 10 9 0
        stumblingStart).1.result?.map (Option.map Piece.splice) = some (some (some 2)) := by
      decide +kernel
    rcases hresult : body stumblingTask (apply stumblingTask 1 []) [] 0 0 stumblingStart with
      ⟨found | f | e, s⟩ <;> rw [hresult] at hmatches
    · obtain ⟨x, hpiece, -, htree⟩ := hbody 0 ⟨"s", 9⟩ 0 stumblingStart found s rfl hresult
      change Pieces.eval stumblingTask
        (apply stumblingTask 1 []) [] 10 9 0 stumblingStart = _ at hpiece
      rw [hpiece] at hsplice
      have hx : x.splice = some 2 := Option.some.inj (Option.some.inj hsplice)
      rcases htree with ⟨hnone, -⟩ | ⟨i, hi, htree⟩
      · cases hx.symm.trans hnone
      · cases hx.symm.trans hi
        exact ⟨found, s, rfl, x, hpiece, hx, htree⟩
    · cases hmatches
    · cases hmatches

end Buffered

end Seedling
