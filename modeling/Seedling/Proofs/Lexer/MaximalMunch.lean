import Mathlib.Order.Bounds.Basic
import Seedling.Lexer.Basic
import Seedling.Proofs.Automaton.Determinize
import Seedling.Proofs.Automaton.Equivalence
import Seedling.Proofs.Automaton.LongestMatch
import Seedling.Proofs.Regex.LongestMatch
import Seedling.Proofs.Regex.Tagged
import Seedling.Proofs.Source.Lines

/-!
Lexers take the longest word that some rule has, under the name that was declared first. What a
lexer should do is said first, from the languages of the rules alone but for the place of an
error. The name of a token is chosen when sets of states become states; it survives minimization
because every final state is a mark, and the table gives the longest match of the automaton.
-/

namespace Seedling.Lexer

open Automaton Source

/-! ### What a lexer should do -/

section Reference

variable (rules : List (Regex × String)) (ignored : List String) (text : List UInt8) (eof : Bool)

def Matches (w : List UInt8) : Prop := ∃ rule ∈ rules, w ∈ rule.1.language

/-- Where the words end that a token at `p` may consist of. -/
def tokenEnds (p : Nat) : Set Nat :=
  {stop | p < stop ∧ stop ≤ text.length ∧ Matches rules (slice text p stop)}

/-- The name of a word is, of the names of the rules that have it, the one that was declared
first. -/
structure Names (w : List UInt8) (name : String) : Prop where
  declared : ∃ rule ∈ rules, w ∈ rule.1.language ∧ rule.2 = name
  first : ∀ rule ∈ rules, w ∈ rule.1.language →
    rank (rules.map Prod.snd) name ≤ rank (rules.map Prod.snd) rule.2

/-- Where reading from `p` on comes to an end: at the end of the text or before a byte after
which no state of the automaton of all rules is left. -/
def deadEnds (p : Nat) : Set Nat :=
  {q | p ≤ q ∧ (q = text.length ∨
    (Regex.compileTagged rules).run (Regex.compileTagged rules).start
      (slice text p (q + 1)) = .empty)}

/-- The offset that is reported when there is no token at `p`. -/
def GivesUp (p q : Nat) : Prop :=
  (Matches rules [] → q = p) ∧ (¬ Matches rules [] → IsLeast (deadEnds rules text p) q)

/-- The tokens from `p` on, or the error that ends them. -/
inductive Tokenizes : Nat → Except LexError (List Token) → Prop where
  | finish :
      Tokenizes text.length (.ok (if eof then [.eof (.ofOffset text text.length)] else []))
  | token {p stop : Nat} {name : String} {result : Except LexError (List Token)} :
      IsGreatest (tokenEnds rules text p) stop → Names rules (slice text p stop) name →
      Tokenizes stop result →
      Tokenizes p (result.map fun tokens =>
        if name ∈ ignored then tokens
        else ⟨name, Text.decode (slice text p stop), .ofOffset text p⟩ :: tokens)
  | stuck {p q : Nat} :
      p < text.length → tokenEnds rules text p = ∅ → GivesUp rules text p q →
      Tokenizes p (.error ⟨.ofOffset text q, text[q]?⟩)

end Reference

variable {rules : List (Regex × String)} {ignored : List String} {text : List UInt8} {eof : Bool}

theorem Names.unique {w : List UInt8} {name name' : String} (h : Names rules w name)
    (h' : Names rules w name') : name = name' := by
  obtain ⟨rule, hrule, hw, rfl⟩ := h.declared
  obtain ⟨rule', hrule', hw', rfl⟩ := h'.declared
  have heq := Nat.le_antisymm (h.first rule' hrule' hw') (h'.first rule hrule hw)
  exact (List.idxOf_inj (List.mem_map_of_mem hrule)).1 heq

theorem GivesUp.unique {p q q' : Nat} (h : GivesUp rules text p q) (h' : GivesUp rules text p q') :
    q = q' := by
  by_cases hempty : Matches rules []
  · exact (h.1 hempty).trans (h'.1 hempty).symm
  · exact (h.2 hempty).unique (h'.2 hempty)

theorem Tokenizes.unique {p : Nat} {result result' : Except LexError (List Token)}
    (h : Tokenizes rules ignored text eof p result)
    (h' : Tokenizes rules ignored text eof p result') : result = result' := by
  induction h generalizing result' with
  | finish =>
      generalize hp : text.length = p at h'
      cases h' with
      | finish => rfl
      | token hstop => exact absurd hstop.1.1 (Nat.not_lt.2 (hp ▸ hstop.1.2.1))
      | stuck hlt => exact absurd hlt (Nat.not_lt.2 (Nat.le_of_eq hp))
  | @token p stop name result hstop hname _ ih =>
      cases h' with
      | finish => exact absurd hstop.1.1 (Nat.not_lt.2 hstop.1.2.1)
      | token hstop' hname' hrest =>
          obtain rfl := hstop.unique hstop'
          obtain rfl := hname.unique hname'
          rw [ih hrest]
      | stuck _ hnone =>
          have hmem := hstop.1
          rw [hnone] at hmem
          exact hmem.elim
  | @stuck p q hlt hnone hgives =>
      cases h' with
      | finish => exact absurd hlt (Nat.lt_irrefl _)
      | token hstop =>
          have hmem := hstop.1
          rw [hnone] at hmem
          exact hmem.elim
      | stuck _ _ hgives' => rw [hgives.unique hgives']

/-! ### The automaton of a lexer -/

/-- The automaton behind the table of a lexer. -/
def automaton (rules : List (Regex × String)) : Dfa :=
  (determinize (Regex.compileTagged rules) (some (rules.map Prod.snd))).minimized

theorem ofRules_recognizer :
    (ofRules rules ignored).recognizer = .ofDfa (automaton rules) := rfl

section Automaton

variable (hrules : ∀ rule ∈ rules, rule.1.Untagged)
include hrules

theorem compileTagged_wellFormed :
    (Regex.compileTagged rules).WellFormed ∧
      (∀ s ∈ (Regex.compileTagged rules).start, s < (Regex.compileTagged rules).size) ∧
      (Regex.compileTagged rules).Filled := by
  obtain ⟨x, nfa, htagged, heq⟩ := Regex.exists_tagged hrules
  rw [heq]
  exact ⟨Regex.close_wellFormed htagged.grows.wellFormed, htagged.close_start_lt, htagged.filled⟩

theorem determinize_compileTagged_valid (precedence : Option (List String)) :
    (determinize (Regex.compileTagged rules) precedence).Valid :=
  have hnfa := compileTagged_wellFormed hrules
  determinize_valid precedence hnfa.1 hnfa.2.1

theorem automaton_valid : (automaton rules).Valid :=
  Dfa.minimized_valid (determinize_compileTagged_valid hrules _)

/-- The tables of expressions and of lexers may be kept in words of 32 bits, as long as their
automata have fewer states than there are words: they are read from words as they are. -/
theorem inWords_recognizer :
    (∀ r : Regex, r.recognizer.dfa.size < UInt32.size → r.recognizer.inWords = r.recognizer) ∧
      ∀ ignored, (ofRules rules ignored).recognizer.dfa.size < UInt32.size →
        (ofRules rules ignored).recognizer.inWords = (ofRules rules ignored).recognizer :=
  ⟨fun r => Recognizer.inWords_ofDfa (Dfa.minimized_valid r.determinize_compile_valid),
    fun _ => Recognizer.inWords_ofDfa (automaton_valid hrules)⟩

/-- Runs in the automaton are runs among the sets of states, seen through the classes. -/
theorem automaton_run (w : List UInt8) :
    (automaton rules).run 0 w =
      ((determinize (Regex.compileTagged rules) (some (rules.map Prod.snd))).run 0 w).map
        (determinize (Regex.compileTagged rules) (some (rules.map Prod.snd))).classOf := by
  have hd := determinize_compileTagged_valid hrules (some (rules.map Prod.snd))
  have hrun := hd.minimized_run hd.size_pos w
  rwa [Dfa.classOf_zero] at hrun

theorem automaton_run_eq_none_iff {w : List UInt8} (hw : w ≠ []) :
    (automaton rules).run 0 w = none ↔
      (Regex.compileTagged rules).run (Regex.compileTagged rules).start w = .empty := by
  obtain ⟨hwf, hstart, hfilled⟩ := compileTagged_wellFormed hrules
  rw [automaton_run hrules, Option.map_eq_none_iff]
  exact determinize_run_eq_none_iff _ hwf hstart hfilled
    (Subsets.ofNfa_spec hwf hstart).1.first (.inr hw)

/-- The words that some rule has lead to final states, and only they do. -/
theorem matches_iff (precedence : Option (List String)) (w : List UInt8) :
    Matches rules w ↔ ∃ q,
      (determinize (Regex.compileTagged rules) precedence).run 0 w = some q ∧
        q ∈ (determinize (Regex.compileTagged rules) precedence).final := by
  obtain ⟨hwf, hstart, -⟩ := compileTagged_wellFormed hrules
  obtain ⟨x, nfa, htagged, heq⟩ := Regex.exists_tagged hrules
  rw [← Dfa.recognize_iff, determinize_recognize precedence hwf hstart, Nfa.recognize]
  simp only [List.any_eq_true, SortedSet.mem_toList, SortedSet.contains, decide_eq_true_eq, heq,
    htagged.mem_close_final]
  constructor
  · rintro ⟨rule, hrule, hw⟩
    obtain ⟨m, hm, hmark, -⟩ := htagged.exists_mark hrule hw
    exact ⟨m, hm, hmark⟩
  · rintro ⟨m, hm, hmark⟩
    obtain ⟨rule, hrule, hw, -⟩ := htagged.exists_rule hm hmark
    exact ⟨rule, hrule, hw⟩

/-- A final state bears the name of the words that lead to it, and must survive. -/
theorem names_of_run {w : List UInt8} {q : Nat}
    (hq : (determinize (Regex.compileTagged rules) (some (rules.map Prod.snd))).run 0 w = some q)
    (hfinal : q ∈ (determinize (Regex.compileTagged rules) (some (rules.map Prod.snd))).final) :
    q ∈ (determinize (Regex.compileTagged rules) (some (rules.map Prod.snd))).unmergeable ∧
      Names rules w
        ((determinize (Regex.compileTagged rules) (some (rules.map Prod.snd))).name q) := by
  obtain ⟨hwf, hstart, -⟩ := compileTagged_wellFormed hrules
  have hstands := standsFor_determinize (some (rules.map Prod.snd))
    (subsetsOf_run _ hwf hstart hq)
  generalize determinize (Regex.compileTagged rules) (some (rules.map Prod.snd)) = d
    at hstands hfinal ⊢
  obtain ⟨x, nfa, htagged, heq⟩ := Regex.exists_tagged hrules
  rw [heq] at hstands
  obtain ⟨m, hm, hmark⟩ := hstands.final.1 hfinal
  rw [htagged.mem_close_final] at hmark
  obtain ⟨s, hprevails, hname⟩ := hstands.named ⟨m, hm, hmark⟩
  refine ⟨hstands.unmergeable.2 ⟨m, hm, hmark⟩, ?_, fun rule hrule hw => ?_⟩
  · obtain ⟨rule, hrule, hw, hrulename⟩ := htagged.exists_rule hprevails.mem hprevails.unmergeable
    exact ⟨rule, hrule, hw, by rw [hname, hrulename]⟩
  · obtain ⟨t, ht, htmark, htname⟩ := htagged.exists_mark hrule hw
    have hfirst := hprevails.first t ht htmark
    simp only [rankIn, htname, ← hname] at hfirst
    omega

theorem acceptedAt_eq_none_iff {w : List UInt8} {k : Nat} :
    Recognizer.acceptedAt (automaton rules) 0 w k = none ↔ ¬ Matches rules (w.take k) := by
  have hd := determinize_compileTagged_valid hrules (some (rules.map Prod.snd))
  rw [← Option.not_isSome_iff_eq_none, ← Recognizer.recognize_take, automaton,
    Dfa.minimized_recognize hd, Dfa.recognize_iff, ← matches_iff hrules]

theorem names_of_acceptedAt {w : List UInt8} {k t : Nat}
    (h : Recognizer.acceptedAt (automaton rules) 0 w k = some t) :
    Names rules (w.take k) ((automaton rules).name t) := by
  have hd := determinize_compileTagged_valid hrules (some (rules.map Prod.snd))
  obtain ⟨hrun, hfinal⟩ := Option.filter_eq_some_iff.1 h
  rw [automaton_run hrules] at hrun
  obtain ⟨q, hq, rfl⟩ := Option.map_eq_some_iff.1 hrun
  have hlt := hd.run_lt hd.size_pos hq
  obtain ⟨hmark, hnames⟩ := names_of_run hrules hq
    ((hd.classOf_mem_final hlt).1 (Dfa.isFinal_iff.1 hfinal))
  rw [automaton, hd.minimized_name hmark]
  exact hnames

end Automaton

/-! ### One token -/

theorem slice_add (text : List UInt8) (p k : Nat) :
    slice text p (p + k) = (text.drop p).take k := by
  rw [slice, List.take_drop]

theorem add_mem_tokenEnds {p k : Nat} :
    p + k ∈ tokenEnds rules text p ↔
      0 < k ∧ k ≤ (text.drop p).length ∧ Matches rules ((text.drop p).take k) := by
  rw [List.length_drop, ← slice_add]
  constructor
  · rintro ⟨hlt, hle, hmatch⟩
    exact ⟨by omega, by omega, hmatch⟩
  · rintro ⟨hpos, hle, hmatch⟩
    exact ⟨by omega, by omega, hmatch⟩

theorem tokenEnds_eq_empty {p : Nat}
    (h : ∀ k, 0 < k → k ≤ (text.drop p).length → ¬ Matches rules ((text.drop p).take k)) :
    tokenEnds rules text p = ∅ := by
  refine Set.eq_empty_of_forall_notMem fun stop hstop => ?_
  obtain ⟨k, rfl⟩ := Nat.exists_eq_add_of_le (Nat.le_of_lt hstop.1)
  obtain ⟨hpos, hle, hmatch⟩ := add_mem_tokenEnds.1 hstop
  exact h _ hpos hle hmatch

theorem errorAt_ofOffset (text : List UInt8) (p n : Nat) :
    errorAt (.ofOffset text p) (text.drop p) n = ⟨.ofOffset text (p + n), text[p + n]?⟩ := by
  rw [errorAt, Position.advance_ofOffset, List.getElem?_drop]

theorem lt_length_of_drop_eq_cons {p : Nat} {b : UInt8} {rest : List UInt8}
    (h : text.drop p = b :: rest) : p < text.length := by
  have hlength := congrArg List.length h
  rw [List.length_drop, List.length_cons] at hlength
  omega

section Steps

variable (hrules : ∀ rule ∈ rules, rule.1.Untagged)
include hrules

theorem add_mem_deadEnds {p k : Nat} (hp : p < text.length) :
    p + k ∈ deadEnds rules text p ↔ k ∈ Recognizer.readable (automaton rules) 0 (text.drop p) := by
  have hne : slice text p (p + k + 1) ≠ [] := by
    intro hnil
    have hlength := congrArg List.length hnil
    simp only [slice, List.length_drop, List.length_take, List.length_nil] at hlength
    omega
  have hend : p + k = text.length ↔ k = (text.drop p).length := by
    rw [List.length_drop]
    omega
  have hrun : (automaton rules).run 0 ((text.drop p).take (k + 1)) = none ↔
      (Regex.compileTagged rules).run (Regex.compileTagged rules).start
        (slice text p (p + k + 1)) = .empty := by
    rw [← slice_add]
    exact automaton_run_eq_none_iff hrules hne
  show p ≤ p + k ∧ (p + k = text.length ∨ _) ↔ k = (text.drop p).length ∨ _
  rw [hend, hrun]
  exact and_iff_right (Nat.le_add_right p k)

theorem isLeast_deadEnds {p k : Nat} (hp : p < text.length)
    (h : IsLeast (Recognizer.readable (automaton rules) 0 (text.drop p)) k) :
    IsLeast (deadEnds rules text p) (p + k) := by
  refine ⟨(add_mem_deadEnds hrules hp).2 h.1, fun q hq => ?_⟩
  obtain ⟨j, rfl⟩ := Nat.exists_eq_add_of_le hq.1
  exact Nat.add_le_add_left (h.2 ((add_mem_deadEnds hrules hp).1 hq)) p

/-- One step takes the longest word, or tells where reading came to an end. -/
theorem step_spec (ignored : List String) {p : Nat} {b : UInt8} {rest : List UInt8}
    (hrest : text.drop p = b :: rest) :
    match (ofRules rules ignored).step (.ofOffset text p) b rest with
    | .ok (token, n) => IsGreatest (tokenEnds rules text p) (p + (n + 1)) ∧
        Names rules (slice text p (p + (n + 1))) token.name ∧
        token.source = Text.decode (slice text p (p + (n + 1))) ∧
        token.position = .ofOffset text p
    | .error e => tokenEnds rules text p = ∅ ∧
        ∃ q, GivesUp rules text p q ∧ e = ⟨.ofOffset text q, text[q]?⟩ := by
  have hp := lt_length_of_drop_eq_cons hrest
  have hspec := Recognizer.longestMatch_spec (automaton_valid hrules) (b :: rest) 0
  rw [step, ofRules_recognizer, ← hrest]
  rw [← hrest, List.drop_zero] at hspec
  cases hmatch : (Recognizer.ofDfa (automaton rules)).longestMatch (text.drop p) 0 with
  | error i =>
      rw [hmatch] at hspec
      obtain ⟨k, rfl, hk⟩ := Recognizer.longestMatch_error hmatch
      rw [List.drop_zero] at hk
      have hnone : ∀ k ≤ (text.drop p).length, ¬ Matches rules ((text.drop p).take k) :=
        fun k hle => (acceptedAt_eq_none_iff hrules).1 (hspec k hle)
      refine ⟨tokenEnds_eq_empty fun k _ => hnone k, p + k, ⟨fun hempty => ?_, fun _ => ?_⟩, ?_⟩
      · exact absurd hempty (hnone 0 (Nat.zero_le _))
      · exact isLeast_deadEnds hrules hp hk
      · rw [Nat.zero_add, errorAt_ofOffset]
  | ok m =>
      rw [hmatch] at hspec
      obtain ⟨hstart, k, hk, hstop, haccepted, hlonger⟩ := hspec
      rw [Nat.zero_add] at hstop
      have hnone : ∀ k', k < k' → k' ≤ (text.drop p).length →
          ¬ Matches rules ((text.drop p).take k') :=
        fun k' hlt hle => (acceptedAt_eq_none_iff hrules).1 (hlonger k' hlt hle)
      have hnames := names_of_acceptedAt hrules haccepted
      dsimp only
      cases k with
      | zero =>
          rw [if_pos (by rw [Match.isEmpty, hstop, hstart]; rfl)]
          have hempty : Matches rules [] := by
            obtain ⟨rule, hrule, hw, -⟩ := hnames.declared
            exact ⟨rule, hrule, hw⟩
          refine ⟨tokenEnds_eq_empty hnone, p, ⟨fun _ => rfl, fun h => absurd hempty h⟩, ?_⟩
          rw [errorAt_ofOffset, Nat.add_zero]
      | succ k =>
          rw [if_neg (by rw [Match.isEmpty, hstop, hstart]; simp)]
          dsimp only
          rw [hstop, Nat.add_sub_cancel, slice_add]
          refine ⟨⟨add_mem_tokenEnds.2 ⟨Nat.succ_pos k, hk, ?_⟩, fun stop hstop => ?_⟩,
            hnames, rfl, rfl⟩
          · obtain ⟨rule, hrule, hw, -⟩ := hnames.declared
            exact ⟨rule, hrule, hw⟩
          · obtain ⟨j, rfl⟩ := Nat.exists_eq_add_of_le (Nat.le_of_lt hstop.1)
            obtain ⟨-, hle, hmatch⟩ := add_mem_tokenEnds.1 hstop
            exact Nat.add_le_add_left (Nat.le_of_not_lt fun hlt => hnone j hlt hle hmatch) p

/-! ### All tokens -/

omit hrules in
theorem mapM_id_token (dropped : Prop) [Decidable dropped] (token : Token)
    (items : List (Except LexError Token)) :
    (if dropped then items else .ok token :: items).mapM id =
      (items.mapM id).map fun tokens => if dropped then tokens else token :: tokens := by
  by_cases h : dropped
  · simp only [if_pos h]
    cases items.mapM id <;> rfl
  · simp only [if_neg h, List.mapM_cons]
    cases items.mapM id <;> rfl

omit hrules in
theorem mapM_id_finish (eof : Bool) (token : Token) :
    (if eof = true then [.ok token] else []).mapM id =
      (.ok (if eof = true then [token] else []) : Except LexError (List Token)) := by
  cases eof <;> rfl

omit hrules in
theorem mapM_drainFrom_of_step {r : Runner} {p n : Nat} {b : UInt8} {rest : List UInt8}
    {token : Token} (hrest : text.drop p = b :: rest)
    (hstep : r.lexer.step (.ofOffset text p) b rest = .ok (token, n)) :
    (r.drainFrom (.ofOffset text p) (b :: rest)).1.mapM id =
      ((r.drainFrom (.ofOffset text (p + (n + 1))) (text.drop (p + (n + 1)))).1.mapM id).map
        fun tokens => if r.lexer.isIgnored token.name then tokens else token :: tokens := by
  have hafter : (Position.ofOffset text p).advance (b :: rest.take n) =
      .ofOffset text (p + (n + 1)) := by
    rw [← List.take_succ_cons, ← hrest, Position.advance_ofOffset]
  have hdrop : rest.drop n = text.drop (p + (n + 1)) := by
    rw [← List.drop_drop, hrest, List.drop_succ_cons]
  rw [Runner.drainFrom, hstep]
  dsimp only
  rw [hafter, hdrop, mapM_id_token]

/-- What is left from an offset on is what a lexer should give from there. -/
theorem tokenizes_drainFrom {r : Runner} (hlexer : r.lexer = ofRules rules ignored) {p : Nat}
    (hp : p ≤ text.length) :
    Tokenizes rules ignored text r.eof p
      ((r.drainFrom (.ofOffset text p) (text.drop p)).1.mapM id) := by
  generalize hleft : text.length - p = left
  induction left using Nat.strong_induction_on generalizing p with
  | _ left ih =>
      cases hrest : text.drop p with
      | nil =>
          obtain rfl : p = text.length := by
            have hle := List.drop_eq_nil_iff.1 hrest
            omega
          rw [Runner.drainFrom, mapM_id_finish]
          exact .finish
      | cons b rest =>
          have hspec := step_spec hrules ignored hrest
          cases hstep : r.lexer.step (.ofOffset text p) b rest with
          | error e =>
              rw [Runner.drainFrom, hstep]
              rw [← hlexer, hstep] at hspec
              obtain ⟨hnone, q, hgives, rfl⟩ := hspec
              exact .stuck (lt_length_of_drop_eq_cons hrest) hnone hgives
          | ok found =>
              obtain ⟨⟨name, source, position⟩, n⟩ := found
              rw [mapM_drainFrom_of_step hrest hstep]
              rw [← hlexer, hstep] at hspec
              obtain ⟨hgreatest, hnames, hsource, hposition⟩ := hspec
              dsimp only at hnames hsource hposition ⊢
              subst hsource hposition
              have hignored : r.lexer.isIgnored name = true ↔ name ∈ ignored := by
                rw [hlexer]
                exact List.contains_iff_mem
              have hstop : p + (n + 1) ≤ text.length := hgreatest.1.2.1
              have htail := ih (text.length - (p + (n + 1))) (by omega) hstop rfl
              simp only [hignored]
              exact .token hgreatest hnames htail

/-- The tokens of a text are those that the rules give it: the longest words under the names
declared first, without the ignored ones, and the end if it is asked for; or the first place
where there is no word, with the byte that reading came to. -/
theorem tokenize_eq_iff_tokenizes (ignored : List String) (text : String) (eof : Bool)
    (result : Except LexError (List Token)) :
    (ofRules rules ignored).tokenize text eof = result ↔
      Tokenizes rules ignored (Text.bytes text) eof 0 result := by
  have hrunner : ((ofRules rules ignored).runner text eof).lexer = ofRules rules ignored := rfl
  have htokenizes := tokenizes_drainFrom hrules hrunner (Nat.zero_le (Text.bytes text).length)
  constructor
  · rintro rfl
    exact htokenizes
  · exact htokenizes.unique

end Steps

/-! ### One after the other -/

namespace Runner

/-- What has been taken, with what is left after it. -/
def andRest : Option (Except LexError Token) × Runner → List (Except LexError Token) × Runner
  | (none, after) => ([], after)
  | (some item, after) => (item :: after.drain.1, after.drain.2)

/-- The place where a runner stands plays no part in what is left from another place on. -/
theorem drainFrom_moved (r : Runner) (p : Source.Position) (cs : List UInt8)
    (position : Source.Position) (bs : List UInt8) :
    { r with position := p, rest := cs }.drainFrom position bs = r.drainFrom position bs := by
  fun_induction drainFrom r position bs with
  | case1 position => rw [drainFrom]
  | case2 position b rest e hstep => rw [drainFrom, hstep]
  | case3 position b rest token n hstep items r' hrest ih =>
      rw [drainFrom, hstep]
      dsimp only
      rw [ih, hrest]

theorem drainFrom_eq_nextFrom {r : Runner} (hdone : r.done = false) (position : Source.Position)
    (bs : List UInt8) : r.drainFrom position bs = andRest (r.nextFrom position bs) := by
  fun_induction nextFrom r position bs with
  | case1 position =>
      rw [drainFrom]
      cases r.eof <;> rfl
  | case2 position b rest e hstep =>
      rw [drainFrom, hstep]
      rfl
  | case3 position b rest token n hstep after hignored ih =>
      rw [drainFrom, hstep]
      dsimp only
      rw [if_pos hignored, ih]
  | case4 position b rest token n hstep after hignored =>
      rw [drainFrom, hstep]
      dsimp only
      rw [if_neg hignored, andRest, drain, if_neg (by simp [hdone])]
      exact congrArg (fun left => (.ok token :: left.1, left.2))
        (drainFrom_moved r after (rest.drop n) after (rest.drop n)).symm

/-- All that is left is what comes next, and all that is left after it. -/
theorem drain_eq_next (r : Runner) : r.drain = andRest r.next := by
  rw [drain, next]
  cases hdone : r.done with
  | true => rfl
  | false => exact drainFrom_eq_nextFrom hdone r.position r.rest

/-- Taking one item after the other until there is none gives these items. -/
inductive GivesAll : Runner → List (Except LexError Token) → Runner → Prop where
  | stop {r after : Runner} : r.next = (none, after) → GivesAll r [] after
  | item {r between after : Runner} {item : Except LexError Token}
      {items : List (Except LexError Token)} :
      r.next = (some item, between) → GivesAll between items after →
        GivesAll r (item :: items) after

/-- The loop that gathers everything takes one item after the other. -/
theorem givesAll_iff {r after : Runner} {items : List (Except LexError Token)} :
    r.GivesAll items after ↔ r.drain = (items, after) := by
  constructor
  · intro h
    induction h with
    | stop hnext => rw [drain_eq_next, hnext, andRest]
    | item hnext _ ih => rw [drain_eq_next, hnext, andRest, ih]
  · intro h
    induction items generalizing r with
    | nil =>
        rw [drain_eq_next] at h
        rcases hnext : r.next with ⟨_ | item, between⟩ <;> rw [hnext] at h <;> cases h
        exact .stop hnext
    | cons item items ih =>
        rw [drain_eq_next] at h
        rcases hnext : r.next with ⟨_ | item', between⟩ <;> rw [hnext] at h <;> cases h
        exact .item hnext (ih rfl)

end Runner

/-- The tokens of a text are those that a runner gives one by one, or the first error among them. -/
theorem tokenize_eq_of_givesAll {lexer : Lexer} {text : String} {after : Runner}
    {items : List (Except LexError Token)} (h : (lexer.runner text eof).GivesAll items after) :
    lexer.tokenize text eof = items.mapM id := by
  rw [tokenize, Runner.givesAll_iff.1 h]

def words : List (Regex × String) :=
  [(.literal [105, 102], "IF"), (.plus (.range 97 122), "NAME"), (.literal [32], "BLANK")]

/-- The keyword is a name too, but was declared first. -/
theorem tokenize_words :
    (∀ rule ∈ words, rule.1.Untagged) ∧
      (ofRules words ["BLANK"]).tokenize "if" true =
        .ok [⟨"IF", "if", ⟨0, 1, 1⟩⟩, .eof ⟨2, 1, 3⟩] := by
  have hrules : ∀ rule ∈ words, rule.1.Untagged := by
    simp [words, Regex.Untagged, Regex.plus]
  refine ⟨hrules, (tokenize_eq_iff_tokenizes hrules ["BLANK"] "if" true _).2 ?_⟩
  have hbytes : Text.bytes "if" = [105, 102] := by decide +kernel
  rw [hbytes]
  have hmem : (.literal [105, 102], "IF") ∈ words := List.mem_cons_self
  have hgreatest : IsGreatest (tokenEnds words [105, 102] 0) 2 :=
    ⟨⟨by decide, by decide, _, hmem, rfl⟩, fun _ hstop => hstop.2.1⟩
  have hnames : Names words [105, 102] "IF" :=
    ⟨⟨_, hmem, rfl, rfl⟩, fun _ _ _ => Nat.zero_le _⟩
  have hend : Tokenizes words ["BLANK"] [105, 102] true 2 (.ok [.eof ⟨2, 1, 3⟩]) := .finish
  have htoken := Tokenizes.token hgreatest hnames hend
  have hsource : Text.decode (slice [105, 102] 0 2) = "if" := by decide +kernel
  rw [hsource] at htoken
  exact htoken

end Seedling.Lexer
