import Seedling.Grammar.Lint
import Seedling.Proofs.Parse.Chains
import Seedling.Proofs.Parse.Standing

/-!
An alternative that repeats an earlier one never matches. Atoms of the same shape mean the same
under the same answers. When the repetition is tried, the earlier alternative has failed, and
what it was answered still stands in the memo table; so the repetition is answered the same and
fails, too. That holds while a seed grows as well, where an alternative may match in one round
and fail in another.
-/

namespace Seedling

/-! ### Shapes -/

section Shapes

variable {g : Grammar} {subject : Subject} {A : Answers} {p : Nat} {o : Option Piece}

/-- Whatever one atom means the other does. -/
def SameMeaning (g : Grammar) (subject : Subject) (A : Answers) (a b : AtomId) : Prop :=
  ∀ p o, Meaning g subject A (.atom a) p o → Meaning g subject A (.atom b) p o

theorem Meaning.items_congr {as bs : List AtomId} (h : List.Forall₂ (SameMeaning g subject A) as bs)
    (hx : Meaning g subject A (.items as) p o) : Meaning g subject A (.items bs) p o := by
  induction h generalizing p o with
  | nil => exact hx
  | cons hab _ ih =>
      cases hx with
      | item hx hrest => exact .item (hab _ _ hx) (ih hrest)
      | broken hx => exact .broken (hab _ _ hx)

theorem Meaning.alternatives_congr {as bs : List AtomId}
    (h : List.Forall₂ (SameMeaning g subject A) as bs)
    (hx : Meaning g subject A (.alternatives as) p o) :
    Meaning g subject A (.alternatives bs) p o := by
  induction h with
  | nil => exact hx
  | cons hab _ ih =>
      cases hx with
      | taken hx => exact .taken (hab _ _ hx)
      | passed hx hrest => exact .passed (hab _ _ hx) (ih hrest)

theorem Meaning.run_congr {a b : AtomId} {min count : Nat} {max : Option Nat}
    (h : SameMeaning g subject A a b) (hx : Meaning g subject A (.run a min max count) p o) :
    Meaning g subject A (.run b min max count) p o := by
  generalize hform : Form.run a min max count = form at hx
  induction hx generalizing count with
  | full hfull =>
      cases hform
      exact .full hfull
  | more hfull hx hlt _ _ ih =>
      cases hform
      exact .more hfull (h _ _ hx) hlt (ih rfl)
  | empty hfull hx hle =>
      cases hform
      exact .empty hfull (h _ _ hx) hle
  | enough hfull hx hcount =>
      cases hform
      exact .enough hfull (h _ _ hx) hcount
  | tooFew hfull hx hcount =>
      cases hform
      exact .tooFew hfull (h _ _ hx) hcount
  | _ => contradiction

theorem Meaning.operator_congr (hg : g.Compiled) {a b : AtomId} {atom : Atom}
    (ha : g.atoms[a]? = some atom) (hb : g.atoms[b]? = some atom)
    (hx : Meaning g subject A (.operator a atom) p o) :
    Meaning g subject A (.operator b atom) p o := by
  have hmatch : subject.matchTerminal g a p = subject.matchTerminal g b p := by
    rw [matchTerminal_eq_lone hg ha, matchTerminal_eq_lone hg hb]
  cases hx with
  | rule hr => exact .rule hr
  | literal =>
      rw [hmatch]
      exact .literal
  | pattern =>
      rw [hmatch]
      exact .pattern
  | token =>
      rw [hmatch]
      exact .token
  | sequence hx => exact .sequence hx
  | choice hx => exact .choice hx
  | repetition hx => exact .repetition hx
  | lookahead hx => exact .lookahead hx
  | discard hx => exact .discard hx
  | splice hx => exact .splice hx

/-- Atoms of the same shape mean the same. -/
theorem sameMeaning_of_sameShape (hg : g.Compiled) {bound : Nat} {a b : AtomId}
    (h : g.leftEdge.sameShape bound a b = true) : SameMeaning g subject A a b := by
  -- On the bound, which goes down from an atom to its operands.
  induction bound generalizing a b with
  | zero =>
      obtain rfl : a = b := of_decide_eq_true h
      exact fun _ _ hx => hx
  | succ bound ih =>
      have hlist : ∀ {as bs : List AtomId}, (decide (as.length = bs.length) &&
          (as.zip bs).all fun p => g.leftEdge.sameShape bound p.1 p.2) = true →
          List.Forall₂ (SameMeaning g subject A) as bs := by
        intro as bs hsame
        rw [Bool.and_eq_true, decide_eq_true_eq, List.all_eq_true] at hsame
        exact List.forall₂_iff_zip.2 ⟨hsame.1, fun hmem => ih (hsame.2 _ hmem)⟩
      have hone : ∀ {a b : AtomId}, (decide ([a].length = [b].length) &&
          ([a].zip [b]).all fun p => g.leftEdge.sameShape bound p.1 p.2) = true →
          SameMeaning g subject A a b := fun hsame => (List.forall₂_cons.1 (hlist hsame)).1
      rw [LeftEdge.sameShape] at h
      split at h
      · rename_i hab
        rw [hab]
        exact fun _ _ hx => hx
      intro p o hx
      cases hx with
      | atom hatom hx =>
          split at h
          · rename_i ha hb
            cases hatom.symm.trans ha
            cases hx with
            | sequence hx => exact .atom hb (.sequence (hx.items_congr (hlist h)))
          · rename_i ha hb
            cases hatom.symm.trans ha
            cases hx with
            | choice hx => exact .atom hb (.choice (hx.alternatives_congr (hlist h)))
          · rename_i ha hb
            cases hatom.symm.trans ha
            cases hx with
            | discard hx => exact .atom hb (.discard (hone h _ _ hx))
          · rename_i ha hb
            cases hatom.symm.trans ha
            cases hx with
            | splice hx => exact .atom hb (.splice (hone h _ _ hx))
          · rename_i ha hb
            cases hatom.symm.trans ha
            obtain ⟨hbounds, hsame⟩ := Bool.and_eq_true_iff.1 h
            obtain ⟨hmin, hmax⟩ := Bool.and_eq_true_iff.1 hbounds
            cases of_decide_eq_true hmin
            cases of_decide_eq_true hmax
            cases hx with
            | repetition hx => exact .atom hb (.repetition (hx.run_congr (hone hsame)))
          · rename_i ha hb
            cases hatom.symm.trans ha
            obtain ⟨hpositive, hsame⟩ := Bool.and_eq_true_iff.1 h
            cases of_decide_eq_true hpositive
            cases hx with
            | lookahead hx => exact .atom hb (.lookahead (hone hsame _ _ hx))
          · rename_i ha hb
            cases hatom.symm.trans ha
            obtain rfl := of_decide_eq_true h
            exact .atom hb (hx.operator_congr hg ha hb)
          · contradiction

end Shapes

/-! ### Alternatives -/

/-- An alternative that fails once those before it have is not missed. -/
theorem Meaning.alternatives_eraseIdx {g : Grammar} {subject : Subject} {A : Answers} {p i : Nat}
    {o : Option Piece} {atoms : List AtomId} {a : AtomId} (hi : atoms[i]? = some a)
    (hfails : (∀ b ∈ atoms.take i, Meaning g subject A (.atom b) p none) →
      ∀ x, Meaning g subject A (.atom a) p x → x = none)
    (h : Meaning g subject A (.alternatives atoms) p o) :
    Meaning g subject A (.alternatives (atoms.eraseIdx i)) p o := by
  induction i generalizing atoms with
  | zero =>
      cases h with
      | exhausted => contradiction
      | taken hx =>
          cases hi
          cases hfails (List.forall_mem_nil _) _ hx
      | passed _ hrest => exact hrest
  | succ i ih =>
      cases h with
      | exhausted => contradiction
      | taken hx => exact .taken hx
      | passed hx hrest =>
          refine .passed hx (ih hi (fun hbefore => hfails ?_) hrest)
          exact List.forall_mem_cons.2 ⟨hx, hbefore⟩

namespace Parser

variable {parser : Parser} {input : Input} {start : RuleId}

/-- An alternative of the same shape as an earlier one of the choice fails whenever it is
evaluated. So the choice comes to the same without it, whatever has been answered so far. -/
theorem duplicate_alternative_fails {atoms : Array Atom} {rules : Array Rule} {root : RuleId}
    (hg : Grammar.ofParts atoms rules root = .ok parser.grammar)
    (hstart : start < parser.grammar.rules.size) {id a b : AtomId} {alternatives : List AtomId}
    {i j : Nat} (hchoice : parser.grammar.atoms[id]? = some (.choice alternatives))
    (hi : alternatives[i]? = some a) (hj : alternatives[j]? = some b) (hlt : j < i)
    (hsame : parser.grammar.leftEdge.same b a = true) :
    ∀ x ∈ (parser.run .sights [] start input).2.1,
      (∀ p stop, x.event = .tried id i p stop → stop = none) ∧
        ∀ p stop, x.event = .atom id p stop → ∃ o, stop = o.map Piece.stop ∧
          Meaning parser.grammar (.ofInput input) x.memo.answers
            (.alternatives (alternatives.eraseIdx i)) p o := by
  have hcompiled := Grammar.assemble_compiled (Grammar.assemble_of_ofParts hg).1
  cases hrefusal : refusal parser.grammar parser.config input with
  | some e =>
      rw [run_refused hrefusal]
      exact List.forall_mem_nil _
  | none =>
      rw [run_eq_attempt hrefusal]
      intro x hx
      have hmeant := attempt_meant hcompiled.toWellFormed hstart _ x hx
      -- Where the earlier alternative has failed the other one does.
      have hfails : ∀ {p}, (∀ c ∈ alternatives.take i,
          Meaning parser.grammar (.ofInput input) x.memo.answers (.atom c) p none) →
          ∀ y, Meaning parser.grammar (.ofInput input) x.memo.answers (.atom a) p y → y = none := by
        intro p hbefore y hy
        have hb : b ∈ alternatives.take i :=
          List.mem_of_getElem? ((List.getElem?_take_of_lt hlt).trans hj)
        have hrepeated := sameMeaning_of_sameShape hcompiled hsame p none (hbefore b hb)
        exact hy.unique hrepeated fun _ _ _ _ => MemoTable.answers_unique
      rw [Sight.Meant] at hmeant
      refine ⟨fun p stop hevent => ?_, fun p stop hevent => ?_⟩ <;> rw [hevent] at hmeant
      · obtain ⟨alternatives', hchoice', hbefore, a', y, hi', hy, rfl⟩ := hmeant
        cases hchoice.symm.trans hchoice'
        cases hi.symm.trans hi'
        rw [hfails hbefore y hy, Option.map_none]
      · obtain ⟨y, hy, rfl⟩ := hmeant
        refine ⟨y, rfl, ?_⟩
        cases hy with
        | atom hatom hy =>
            cases hchoice.symm.trans hatom
            cases hy with
            | choice hy => exact hy.alternatives_eraseIdx hi hfails

/-- `e: e 'x' | e 'x' | 'y'`. -/
def stammering : Grammar where
  atoms := #[.rule 0, .literal "x", .sequence [0, 1], .rule 0, .literal "x", .sequence [3, 4],
    .literal "y", .choice [2, 5, 6]]
  rules := #[⟨"e", 7⟩]
  root := 0
  matchers := Array.replicate 8 none

theorem ofParts_stammering :
    Grammar.ofParts stammering.atoms stammering.rules 0 = .ok stammering := by
  with_unfolding_all rfl

/-- In `yx` the second alternative is evaluated while the rule has a seed, and fails. -/
theorem duplicate_alternative_fails_stammering :
    stammering.leftEdge.duplicates [2, 5, 6] = [.duplicateAlternative 1 0] ∧
      ∃ x ∈ ((ofGrammar stammering {}).run .sights [] 0 (.text "yx")).2.1,
        (x.memo.get? 0 0).any Entry.hasSeed = true ∧ ∃ p, x.event = .tried 7 1 p none := by
  refine ⟨by decide, ?_⟩
  have hevaluated : ∃ x ∈ ((ofGrammar stammering {}).run .sights [] 0 (.text "yx")).2.1,
      (x.memo.get? 0 0).any Entry.hasSeed = true ∧ ∃ stop ∈ [none, some 1],
      x.event = .tried 7 1 0 stop := by
    decide +kernel
  obtain ⟨x, hx, hseed, stop, -, hevent⟩ := hevaluated
  have hfails := @duplicate_alternative_fails (ofGrammar stammering {}) (.text "yx") 0 _ _ _
    ofParts_stammering (by decide) 7 5 2 [2, 5, 6] 1 0 rfl rfl rfl (by decide) (by decide) x hx
  cases hfails.1 0 stop hevent
  exact ⟨x, hx, hseed, 0, hevent⟩

end Parser

end Seedling
