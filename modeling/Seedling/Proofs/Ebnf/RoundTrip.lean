import Seedling.Proofs.Ebnf.Ranks

/-!
Grammar text is read as it was written. Every phrase is read as its expression, by recursion
over the expression: what is put between brackets is a choice, what has a sign is an operand,
and so on up to the productions. As rules are nested no deeper than the brackets ask for, the
text is parsed within the limits.
-/

namespace Seedling.Ebnf

open Grammar

variable {g : Grammar} {layout : Layout} {e : Expr}

/-! ### Phrases -/

namespace Phrase

variable {x : Phrase} {rank : Rank}

def Denotes (g : Grammar) (x : Phrase) (e : Expr) : Prop := Reads g x.rank x.nesting x.chars e

theorem Denotes.operand (h : x.Denotes g e) (hrank : x.rank.level ≤ Rank.operand.level) :
    Reads g .operand x.nesting x.chars e := by
  obtain ⟨rank, chars, nesting⟩ := x
  cases rank with
  | operand => exact h
  | item | sequence | choice => simp [Rank.level] at hrank

theorem Denotes.item (hg : IsMeta g) (h : x.Denotes g e) (hrank : x.rank.level ≤ Rank.item.level) :
    Reads g .item x.nesting (x.spaced layout) e := by
  obtain ⟨rank, chars, nesting⟩ := x
  cases rank with
  | operand => exact Reads.toItem hg h
  | item => exact h
  | sequence | choice => simp [Rank.level] at hrank

theorem Denotes.sequence (hg : IsMeta g) (h : x.Denotes g e)
    (hrank : x.rank.level ≤ Rank.sequence.level) :
    Reads g .sequence x.nesting (x.spaced layout) e := by
  obtain ⟨rank, chars, nesting⟩ := x
  cases rank with
  | operand => exact (Reads.toItem hg h).toSequence hg
  | item => exact Reads.toSequence hg h
  | sequence => exact h
  | choice => simp [Rank.level] at hrank

theorem Denotes.choice (hg : IsMeta g) (h : x.Denotes g e) :
    Reads g .choice x.nesting (x.spaced layout) e := by
  obtain ⟨rank, chars, nesting⟩ := x
  cases rank with
  | operand => exact ((Reads.toItem hg h).toSequence hg).toChoice hg layout
  | item => exact (Reads.toSequence hg h).toChoice hg layout
  | sequence => exact Reads.toChoice hg layout h
  | choice => exact h

theorem Denotes.enclosed (hg : IsMeta g) (b : Bracket) (h : x.Denotes g e) :
    (x.enclosed layout b).Denotes g (b.wrap e) :=
  Reads.enclosed hg b (h.choice hg)

theorem Denotes.upTo (hg : IsMeta g) (h : x.Denotes g e) : (x.upTo layout rank).Denotes g e := by
  rw [Phrase.upTo]
  split
  · exact h
  · exact h.enclosed hg .round

theorem level_upTo : (x.upTo layout rank).rank.level ≤ rank.level := by
  rw [upTo]
  split
  · assumption
  · exact Nat.zero_le _

theorem Denotes.signed (hg : IsMeta g) (h : x.Denotes g e) {before behind : Option Char}
    (hbefore : ∀ c ∈ before, isPrefix c = true) (hbehind : ∀ c ∈ behind, isSuffix c = true) :
    (x.signed layout before behind).Denotes g (modified (signText before) (signText behind) e) :=
  ((h.upTo hg).operand level_upTo).signed hg hbefore hbehind

theorem nesting_le_deepest {xs : List Phrase} (h : x ∈ xs) : x.nesting ≤ deepest xs := by
  induction xs with
  | nil => exact absurd h List.not_mem_nil
  | cons y xs ih =>
      rw [deepest, List.map_cons, List.foldr_cons]
      rcases List.mem_cons.1 h with rfl | h
      · exact Nat.le_max_left _ _
      · exact Nat.le_trans (ih h) (Nat.le_max_right _ _)

end Phrase

/-! ### Expressions -/

namespace Expr

theorem phrases_eq_map (es : List Expr) : phrases layout es = es.map (phrase layout) := by
  induction es with
  | nil => rfl
  | cons e es ih => rw [phrases, ih, List.map_cons]

section Lists

variable {es : List Expr} {rank : Rank}

/-- The text of an expression where nothing above a rank may stand. -/
def charsUpTo (layout : Layout) (rank : Rank) (e : Expr) : List Char :=
  ((e.phrase layout).upTo layout rank).spaced layout

theorem nesting_upTo_le (he : e ∈ es) : ((e.phrase layout).upTo layout rank).nesting ≤
    Phrase.deepest ((phrases layout es).map (Phrase.upTo layout rank)) := by
  refine Phrase.nesting_le_deepest ?_
  rw [phrases_eq_map, List.map_map]
  exact List.mem_map.2 ⟨e, he, rfl⟩

theorem denotes_sequence (hg : IsMeta g) (h : ∀ e ∈ es, (e.phrase layout).Denotes g e) :
    (Phrase.sequence layout (phrases layout es)).Denotes g (joined .sequence es) := by
  have hchars : (Phrase.sequence layout (phrases layout es)).chars =
      es.flatMap (charsUpTo layout .item) := by
    rw [Phrase.sequence, phrases_eq_map, List.flatMap_map, List.flatMap_map]
    rfl
  rw [Phrase.Denotes, hchars]
  exact .sequence hg fun e he =>
    (((h e he).upTo hg).item hg Phrase.level_upTo).mono (nesting_upTo_le he)

theorem denotes_choice (hg : IsMeta g) (h : ∀ e' ∈ e :: es, (e'.phrase layout).Denotes g e') :
    (Phrase.choice layout (phrases layout (e :: es))).Denotes g (joined .choice (e :: es)) := by
  have hchars : (Phrase.choice layout (phrases layout (e :: es))).chars =
      charsUpTo layout .sequence e ++
      es.flatMap fun e => ['|'] ++ (layout.margin ++ charsUpTo layout .sequence e) := by
    rw [Phrase.choice, phrases_eq_map, List.map_cons, List.map_cons, List.tail_cons,
      List.flatMap_map, List.flatMap_map]
    rfl
  have hreads : ∀ e' ∈ e :: es,
      Reads g .sequence (Phrase.choice layout (phrases layout (e :: es))).nesting
      (charsUpTo layout .sequence e') e' := fun e' he' =>
    (((h e' he').upTo hg).sequence hg Phrase.level_upTo).mono (nesting_upTo_le he')
  rw [List.forall_mem_cons] at hreads
  rw [Phrase.Denotes, hchars]
  exact .choice hg hreads.1 hreads.2

end Lists

theorem exists_repetitionSign {min : Nat} {max : Option Nat}
    (h : (repetitionSign? min max).isSome = true) :
    ∃ c, repetitionSign? min max = some c ∧ isSuffix c = true ∧
      ∀ e, modified none (signText (some c)) e = .repetition e min max := by
  revert h
  fun_cases repetitionSign? min max
  · exact fun _ => ⟨_, rfl, rfl, fun _ => rfl⟩
  · exact fun _ => ⟨_, rfl, rfl, fun _ => rfl⟩
  · exact fun _ => ⟨_, rfl, rfl, fun _ => rfl⟩
  · exact fun h => by contradiction

@[simp] theorem isPrefix_lookaheadSign (positive : Bool) :
    isPrefix (lookaheadSign positive) = true := by
  cases positive <;> rfl

@[simp] theorem modified_lookahead (positive : Bool) (e : Expr) :
    modified (signText (some (lookaheadSign positive))) none e = .lookahead e positive := by
  cases positive <;> rfl

theorem joined_eq {join : List Expr → Expr} {es : List Expr} (h : es.length ≠ 1) :
    joined join es = join es := by
  fun_cases joined join es
  · contradiction
  · rfl

mutual

/-- An expression that can be written is read as it was. -/
theorem denotes_phrase (hg : IsMeta g) (layout : Layout) (e : Expr) (h : e.isWritable = true) :
    (e.phrase layout).Denotes g e := by
  cases e with
  | name n => exact Reads.name hg h
  | terminal t =>
      cases t with
      | literal text => exact Reads.literal hg text
      | pattern p =>
          rw [isWritable, Bool.not_eq_true', ← Bool.not_eq_true, List.contains_iff_mem] at h
          exact Reads.pattern hg h
  | sequence items =>
      rw [isWritable, Bool.and_eq_true, decide_eq_true_eq] at h
      have hitems := denotes_sequence hg (denotes_phrases hg layout items h.2)
      rwa [joined_eq h.1] at hitems
  | choice items =>
      rw [isWritable, Bool.and_eq_true, decide_eq_true_eq] at h
      have hitems := denotes_phrases hg layout items h.2
      cases items with
      | nil => exact absurd h.1 (by decide)
      | cons e es =>
          have hchoice := denotes_choice hg hitems
          rwa [joined_eq (by omega)] at hchoice
  | repetition e min max =>
      rw [isWritable, Bool.and_eq_true] at h
      obtain ⟨c, hsign, hc, hread⟩ := exists_repetitionSign h.1
      rw [phrase, hsign, ← hread e]
      exact (denotes_phrase hg layout e h.2).signed hg (by simp) (by simpa using hc)
  | lookahead e positive =>
      rw [phrase, ← modified_lookahead]
      exact (denotes_phrase hg layout e h).signed hg (by simp) (by simp)
  | discard e => exact (denotes_phrase hg layout e h).enclosed hg .square
  | splice e => exact (denotes_phrase hg layout e h).enclosed hg .angle

theorem denotes_phrases (hg : IsMeta g) (layout : Layout) (es : List Expr)
    (h : allWritable es = true) : ∀ e ∈ es, (e.phrase layout).Denotes g e := by
  cases es with
  | nil => exact List.forall_mem_nil _
  | cons e es =>
      rw [allWritable, Bool.and_eq_true] at h
      rw [List.forall_mem_cons]
      exact ⟨denotes_phrase hg layout e h.1, denotes_phrases hg layout es h.2⟩

end

end Expr

/-! ### Productions -/

section Productions

variable {ps : List Production} {n : Nat}

theorem Production.opens_chars (hg : IsMeta g) {p : Production} (h : p.isWritable = true) :
    Ahead (fun c => !opensBlank c) (p.chars layout) := by
  have hname : Reads g .operand 0 p.name.toList (.name p.name) :=
    .name hg (Bool.and_eq_true_iff.1 h).1
  exact (hname.opens.of_ne_nil (hname.ne_nil (Nat.zero_le 1)) _).imp (apart_symm (of_contains rfl))

theorem readProductions_node {symbol : String} {trees : List ParseTree}
    (h : List.Forall₂ (fun p t => readProduction t = some p) ps trees) :
    readProductions (.node symbol trees) = ps := by
  show trees.filterMap readProduction = ps
  induction h with
  | nil => rfl
  | cons ht _ ih => rw [List.filterMap_cons_some ht, ih]

/-- The text of some productions is read as these productions. -/
theorem yields_print (hg : IsMeta g) (hne : ps ≠ []) (hwritable : ∀ p ∈ ps, p.isWritable = true)
    (hnesting : ∀ p ∈ ps, p.nesting layout ≤ n) :
    g.Yields (5 * n + 7) 0 (layout.margin ++ ps.flatMap (Production.chars layout)) []
      (readProductions · = ps) := by
  have hopens : Ahead (fun c => !opensBlank c) (ps.flatMap (Production.chars layout)) :=
    .flatMap fun p hp => Production.opens_chars hg (hwritable p hp)
  have hitem : ∀ p qs, p :: qs <:+ ps → g.Takes (5 * n + 6) (.atom 2) (p.chars layout)
      (qs.flatMap (Production.chars layout) ++ []) (One (readProduction · = some p)) := by
    intro p qs hsuffix
    have hp : p ∈ ps := hsuffix.subset List.mem_cons_self
    have hothers : Ahead (fun c => !opensBlank c) (qs.flatMap (Production.chars layout)) :=
      .flatMap fun q hq => Production.opens_chars hg
        (hwritable q (hsuffix.subset (List.mem_cons_of_mem p hq)))
    obtain ⟨hname, hbody⟩ := Bool.and_eq_true_iff.1 (hwritable p hp)
    have hreads : Reads g .choice n ((p.body.phrase layout).spaced layout) p.body :=
      ((Expr.denotes_phrase hg layout p.body hbody).choice hg).mono (hnesting p hp)
    rw [List.append_nil]
    exact .rule (hg.atom rfl) (yields_production hg hname hreads hothers)
  have hword : ∀ p ∈ ps, p.chars layout ≠ [] := fun p _ => by simp [Production.chars]
  have hstop : g.Fails (5 * n + 6) (.atom 2) [] := .rule (hg.atom rfl) (refuses_production hg)
  refine .of_body (hg.rule rfl) (.sequence (hg.atom rfl)
    (.mark (takes_blank hg (hg.atom rfl) (hg.atom rfl) layout.margin_blank
      (by rwa [List.append_nil]))
    (.last (.repetition (hg.atom rfl) (.run hitem hword hstop ?_))))) fun trees htrees =>
      readProductions_node htrees
  rw [Nat.zero_add]
  exact List.length_pos_iff.2 hne

end Productions

theorem refusal_meta (hg : IsMeta g) {config : Config} {text : String}
    (h : text.utf8ByteSize ≤ config.maxInputSize) :
    Parser.refusal g config (.text text) = none := by
  have hmode : g.mode? = some .text := by
    rw [Grammar.mode?, hg.atoms_eq]
    rfl
  rw [Parser.refusal, hmode]
  exact if_neg (Nat.not_lt.2 h)

section Print

variable (layout : Layout) {ps : List Production} (hne : ps ≠ [])
  (hwritable : ∀ p ∈ ps, p.isWritable = true) (hnesting : ∀ p ∈ ps, p.nesting layout ≤ 40)
  (hsize : (print layout ps).utf8ByteSize ≤ ({} : Config).maxInputSize)
include hne hwritable hnesting hsize

theorem exists_parse_print :
    ∃ g tree, metaGrammar = .ok g ∧ g.parse (.text (print layout ps)) = .ok tree ∧
      readProductions tree = ps := by
  obtain ⟨g, hmeta, hg⟩ := exists_meta
  have hcs : layout.margin ++ ps.flatMap (Production.chars layout) =
      [] ++ ((layout.margin ++ ps.flatMap (Production.chars layout)) ++ []) := by simp
  obtain ⟨tree, hwithin, hread⟩ := yields_print hg hne hwritable hnesting _ [] hcs
  have hparse : g.parse (.text (print layout ps)) = .ok tree := by
    have hlength := length_ofList (layout.margin ++ ps.flatMap (Production.chars layout))
    rw [List.nil_append, ← hlength] at hwithin
    have hroot : Within g (.ofInput (.text (print layout ps))) ({} : Config).maxDepth g.root 0
        (some ⟨tree, (Input.text (print layout ps)).length⟩) := by
      rw [hg.root_eq]
      exact hwithin.mono (by decide)
    exact @Parser.run_of_within (.ofGrammar g {}) _ _ _ hg.toWellFormed hroot
      (refusal_meta hg hsize)
  exact ⟨g, tree, hmeta, hparse, hread⟩

theorem productions_print : productions (print layout ps) = .ok ps := by
  obtain ⟨g, tree, hmeta, hparse, hread⟩ := exists_parse_print layout hne hwritable hnesting hsize
  simp only [productions, hmeta, bind, Except.bind, hparse, hread]
  rfl

end Print

/-- Productions that are written as text are read back from it. The text is parsed without
meeting a limit, if its brackets are nested at most 40 deep and it is not too large. -/
theorem readProductions_print (layout : Layout) {ps : List Production} (hne : ps ≠ [])
    (hwritable : ∀ p ∈ ps, p.isWritable = true) (hnesting : ∀ p ∈ ps, p.nesting layout ≤ 40)
    (hsize : (print layout ps).utf8ByteSize ≤ ({} : Config).maxInputSize) :
    (∃ g tree, metaGrammar = .ok g ∧ g.parse (.text (print layout ps)) = .ok tree ∧
      readProductions tree = ps) ∧ productions (print layout ps) = .ok ps :=
  ⟨exists_parse_print layout hne hwritable hnesting hsize,
    productions_print layout hne hwritable hnesting hsize⟩

/-- One blank behind each item, and none elsewhere. -/
def Layout.narrow : Layout where
  gap := [' ']
  margin := []
  gap_ne := by simp
  gap_blank := by simp [isBlank]
  margin_blank := by simp

def sums : List Production :=
  [⟨"sum", .choice
      [.sequence [.name "sum", .discard (.terminal (.literal "+'\\é")), .splice (.name "N_1")],
        .lookahead (.repetition (.choice [.name "N_1", .sequence []]) 1 none) false]⟩,
    ⟨"N_1", .repetition (.terminal (.pattern "[0-9]+")) 0 (some 1)⟩]

theorem print_sums : print .narrow sums =
    "sum:sum ['+\\'\\\\é' ] <N_1 > |!((N_1 |)+ ) ;N_1:`[0-9]+`? ;" := by
  have hchars : Layout.narrow.margin ++ sums.flatMap (Production.chars .narrow) =
      "sum:sum ['+\\'\\\\é' ] <N_1 > |!((N_1 |)+ ) ;N_1:`[0-9]+`? ;".toList := by decide +kernel
  rw [print, hchars, String.ofList_toList]

theorem readProductions_print_sums :
    sums ≠ [] ∧ (∀ p ∈ sums, p.isWritable = true) ∧ (∀ p ∈ sums, p.nesting .narrow ≤ 40) ∧
      (print .narrow sums).utf8ByteSize ≤ ({} : Config).maxInputSize ∧
      (∃ g tree, metaGrammar = .ok g ∧ g.parse (.text (print .narrow sums)) = .ok tree ∧
        readProductions tree = sums) ∧ productions (print .narrow sums) = .ok sums := by
  have hne : sums ≠ [] := by simp [sums]
  have hwritable : ∀ p ∈ sums, p.isWritable = true := by
    simp [sums]
    decide
  have hnesting : ∀ p ∈ sums, p.nesting .narrow ≤ 40 := by
    simp [sums, Production.nesting]
    decide
  have hsize : (print .narrow sums).utf8ByteSize ≤ ({} : Config).maxInputSize := by
    rw [print_sums]
    decide
  exact ⟨hne, hwritable, hnesting, hsize,
    readProductions_print .narrow hne hwritable hnesting hsize⟩

end Seedling.Ebnf
