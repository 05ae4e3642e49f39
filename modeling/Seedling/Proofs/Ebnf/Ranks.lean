import Seedling.Proofs.Ebnf.MetaGrammar

/-!
How grammar text is read, rank by rank. `Reads g rank n w e` says that the text `w`, with `n`
brackets inside each other, is parsed as a phrase of that rank in front of whatever may follow one,
and that `e` is read off its tree. There is a rule for each way to make a phrase from others.
-/

namespace Seedling.Ebnf

open Grammar

variable {g : Grammar} {d n : Nat} {w rest : List Char} {e : Expr} {layout : Layout}

/-! ### Marks and blanks -/

section Marks

variable {id a : AtomId} {s : String} {c : Char}

theorem takes_mark (hdiscard : g.atoms[id]? = some (.discard a))
    (hliteral : g.atoms[a]? = some (.literal s))
    (hs : s.toList = [c]) : g.Takes d (.atom id) [c] rest (· = []) := by
  rw [← hs]
  exact .discard hdiscard (.literal hliteral)

theorem fails_mark (hdiscard : g.atoms[id]? = some (.discard a))
    (hliteral : g.atoms[a]? = some (.literal s))
    (hs : s.toList = [c]) (h : Ahead (· ≠ c) rest) : g.Fails d (.atom id) rest := by
  refine .discard hdiscard (.literal hliteral fun hstart => ?_)
  rw [hs] at hstart
  obtain ⟨rest', rfl⟩ := hstart
  simpa using h c rfl

theorem takes_blank (hg : IsMeta g) (hdiscard : g.atoms[id]? = some (.discard a))
    (hrule : g.atoms[a]? = some (.rule 14)) (hw : ∀ c ∈ w, isBlank c = true)
    (hrest : Ahead (fun c => !opensBlank c) rest) : g.Takes (d + 1) (.atom id) w rest (· = []) :=
  .discard hdiscard (.rule hrule
    (.of_pattern hg.toCompiled (hg.rule rfl) (hg.atom rfl) parse_blank (longest_blank hw hrest)))

end Marks

/-! ### Kinds of operands -/

namespace Bracket

def symbol : Bracket → String
  | .round => "group"
  | .square => "discarded"
  | .angle => "spliced"

def rule : Bracket → RuleId
  | .round => 8
  | .square => 9
  | .angle => 10

def first : Bracket → AtomId
  | .round => 47
  | .square => 55
  | .angle => 63

def atoms (b : Bracket) : List Atom :=
  [.literal (.ofList [b.opening]), .discard (b.first + 0), .rule 14,
    .discard (b.first + 2), .rule 2, .literal (.ofList [b.closing]), .discard (b.first + 5),
    .sequence [b.first + 1, b.first + 3, b.first + 4, b.first + 6]]

theorem rule_eq (b : Bracket) : metaRules[b.rule]? = some ⟨b.symbol, b.first + 7⟩ := by
  cases b <;> rfl

theorem atom {b : Bracket} {i : Nat} {atom : Atom} (h : b.atoms[i]? = some atom) :
    metaAtoms[b.first + i]? = some atom := by
  have hatoms : (metaAtoms.toList.drop b.first).take b.atoms.length = b.atoms := by cases b <;> rfl
  have hlt := (List.getElem?_eq_some_iff.1 h).1
  rw [← hatoms, List.getElem?_take_of_lt hlt, List.getElem?_drop, Array.getElem?_toList] at h
  exact h

def wrap : Bracket → Expr → Expr
  | .round, e => e
  | .square, e => .discard e
  | .angle, e => .splice e

end Bracket

inductive Kind where
  | bracket (b : Bracket)
  | name
  | literal
  | pattern
deriving DecidableEq

namespace Kind

def rule : Kind → RuleId
  | .bracket b => b.rule
  | .name => 11
  | .literal => 12
  | .pattern => 13

def atom (k : Kind) : AtomId := k.rule + 31

/-- How an operand of the kind begins. -/
def opens : Kind → Char → Bool
  | .bracket b, c => c = b.opening
  | .name, c => isNameStart c
  | .literal, c => isQuote c
  | .pattern, c => c = '`'

def all : List Kind :=
  [.bracket .round, .bracket .square, .bracket .angle, .name, .literal, .pattern]

/-- The only kind of operand that may begin with a character. -/
def ofChar (c : Char) : Kind :=
  if isNameStart c then .name
  else if isQuote c then .literal
  else if c = '`' then .pattern
  else if c = '(' then .bracket .round
  else if c = '[' then .bracket .square
  else .bracket .angle

theorem eq_ofChar {k : Kind} {c : Char} (h : k.opens c = true) : k = ofChar c := by
  cases k with
  | bracket b =>
      obtain rfl : c = b.opening := of_decide_eq_true h
      cases b <;> rfl
  | name =>
      have h : isNameStart c = true := h
      rw [ofChar, if_pos h]
  | literal =>
      have hquotes : ∀ c, isQuote c = true → decide (Kind.literal = ofChar c) = true :=
        of_contains rfl
      exact of_decide_eq_true (hquotes c h)
  | pattern =>
      obtain rfl : c = '`' := of_decide_eq_true h
      rfl

theorem mem_all (k : Kind) : k ∈ all := by
  cases k with
  | bracket b => cases b <;> decide
  | name => decide
  | literal => decide
  | pattern => decide

theorem atom_eq (k : Kind) : metaAtoms[k.atom]? = some (.rule k.rule) := by
  cases k with
  | bracket b => cases b <;> rfl
  | name => rfl
  | literal => rfl
  | pattern => rfl

end Kind

def opensOperand (c : Char) : Bool := Kind.all.any fun k => k.opens c

theorem opensOperand_of {k : Kind} {c : Char} (h : k.opens c = true) : opensOperand c = true :=
  List.any_eq_true.2 ⟨k, k.mem_all, h⟩

theorem refuses_kind (hg : IsMeta g) (k : Kind) (h : Ahead (fun c => !k.opens c) rest) :
    g.Refuses (d + 1) k.rule rest := by
  cases k with
  | bracket b =>
      have hmark : g.Fails d (.atom (b.first + 1)) rest :=
        fails_mark (hg.atom (Bracket.atom rfl)) (hg.atom (Bracket.atom rfl)) String.toList_ofList
          (h.imp fun c hc => by simpa [Kind.opens] using hc)
      exact .of_body (hg.rule b.rule_eq) (.sequence (hg.atom (Bracket.atom rfl)) (.first hmark))
  | name =>
      exact .of_pattern hg.toCompiled (hg.rule rfl) (hg.atom rfl) parse_name
        (opensWith_name.not_mem h)
  | literal =>
      exact .of_pattern hg.toCompiled (hg.rule rfl) (hg.atom rfl) parse_literal
        (opensWith_literal.not_mem h)
  | pattern =>
      exact .of_pattern hg.toCompiled (hg.rule rfl) (hg.atom rfl) parse_fence
        (opensWith_fence.not_mem h)

/-- An operand is what its kind makes of it, as all other kinds refuse it. -/
theorem yields_operand (hg : IsMeta g) {P : ParseTree → Prop} {k : Kind} {c : Char}
    (hc : k.opens c = true)
    (h : g.Yields (d + 1) k.rule (c :: w) rest P) : g.Yields (d + 2) 7 (c :: w) rest P := by
  have htakes : ∀ ks : List Kind, k ∈ ks →
      g.Takes (d + 1) (.alternatives (ks.map Kind.atom)) (c :: w) rest (One P) := by
    intro ks hks
    induction ks with
    | nil => exact absurd hks List.not_mem_nil
    | cons k' ks ih =>
        -- a kind before `k` refuses the first character, which only `k` begins with
        by_cases heq : k' = k
        · exact .taken (.rule (hg.atom k'.atom_eq) (heq ▸ h))
        · have hother : k'.opens c = false := by
            rw [Bool.eq_false_iff]
            exact fun hc' => heq ((Kind.eq_ofChar hc').trans (Kind.eq_ofChar hc).symm)
          have hrefuses := @refuses_kind _ d (c :: w ++ rest) hg k' (.cons (by rw [hother]; rfl))
          exact .passed (.rule (hg.atom k'.atom_eq) hrefuses)
            (ih (List.mem_of_ne_of_mem (Ne.symm heq) hks))
  exact .of_splice (hg.rule rfl) (hg.atom rfl) (.choice (hg.atom rfl) (htakes Kind.all k.mem_all))

theorem refuses_operand (hg : IsMeta g) (h : Ahead (fun c => !opensOperand c) rest) :
    g.Refuses (d + 2) 7 rest := by
  have hfails : ∀ a ∈ Kind.all.map Kind.atom, g.Fails (d + 1) (.atom a) rest := by
    intro a ha
    obtain ⟨k, -, rfl⟩ := List.mem_map.1 ha
    refine .rule (hg.atom k.atom_eq) (refuses_kind hg k (h.imp (apart_symm fun c hk => ?_)))
    rw [opensOperand_of hk]
    rfl
  exact .of_splice (hg.rule rfl) (hg.atom rfl) (.choice (hg.atom rfl) hfails)

/-! ### Ranks -/

/-- Behind a choice comes a closing bracket or the end of a production. -/
def closes (c : Char) : Bool := [')', ']', '>', ';'].contains c

/-- Behind a sequence another branch may come, too. -/
def endsBranch (c : Char) : Bool := ['|', ')', ']', '>', ';'].contains c

namespace Rank

def rule : Rank → RuleId
  | .operand => 7
  | .item => 4
  | .sequence => 3
  | .choice => 2

/-- How a phrase begins. -/
def opens : Rank → Char → Bool
  | .operand, c => opensOperand c
  | _, c => !opensBlank c

/-- What may come behind a phrase. -/
def admits : Rank → Char → Bool
  | .operand, c => !isNameChar c
  | .item, c => !opensBlank c
  | .sequence, c => endsBranch c
  | .choice, c => closes c

/-- The expression is read off the tree of a phrase. -/
def IsRead : Rank → Expr → ParseTree → Prop
  | .operand, e, t => isSign t = false ∧ readPrimary t = e
  | .item, e, t => readItem t = e
  | .sequence, e, t => readSequence t = e
  | .choice, e, t => t.symbol = "alternatives" ∧ readAlternatives t = e

end Rank

structure Reads (g : Grammar) (rank : Rank) (n : Nat) (w : List Char) (e : Expr) : Prop where
  opens : Ahead rank.opens w
  ne_nil : rank.level ≤ 1 → w ≠ []
  yields : ∀ rest, Ahead rank.admits rest →
    g.Yields (5 * n + 2 + rank.level) rank.rule w rest (rank.IsRead e)

theorem Reads.mono {rank : Rank} {n' : Nat} (h : Reads g rank n w e) (hle : n ≤ n') :
    Reads g rank n' w e where
  opens := h.opens
  ne_nil := h.ne_nil
  yields rest hrest := (h.yields rest hrest).mono (by omega)

/-! ### Operands -/

theorem Reads.word (hg : IsMeta g) (k : Kind) (symbol : String) {body : AtomId}
    {source : String} {regex : Regex} (hrule : metaRules[k.rule]? = some ⟨symbol, body⟩)
    (hbody : metaAtoms[body]? = some (.pattern source))
    (hparse : Regex.parse source = .ok regex) (hopens : w.head?.any k.opens = true)
    (hlongest : ∀ rest, Ahead (fun c => !isNameChar c) rest →
      regex.Longest (Text.encoded w) (Text.encoded rest))
    (hread : ∀ trees, (ParseTree.node symbol trees).text = String.ofList w →
      Rank.IsRead .operand e (.node symbol trees)) : Reads g .operand n w e := by
  cases w with
  | nil => exact absurd hopens (by simp)
  | cons c w =>
      refine ⟨.cons (opensOperand_of hopens), fun _ => by simp, fun rest hrest => ?_⟩
      refine yields_operand hg hopens
        ((Yields.of_pattern hg.toCompiled (hg.rule hrule) (hg.atom hbody) hparse
        (hlongest rest hrest)).imp fun t ht => ?_)
      obtain ⟨trees, rfl, htext⟩ := ht
      exact hread trees htext

theorem Reads.name (hg : IsMeta g) {name : String} (hname : isIdentifier name = true) :
    Reads g .operand n name.toList (.name name) := by
  have hopens : name.toList.head?.any isNameStart = true := (Bool.and_eq_true_iff.1 hname).1
  refine .word hg .name "name" rfl rfl parse_name hopens
    (fun rest hrest => longest_name hname hrest) ?_
  intro trees htext
  rw [String.ofList_toList] at htext
  exact ⟨rfl, by simp [readPrimary, htext]⟩

theorem Reads.literal (hg : IsMeta g) (text : String) :
    Reads g .operand n (quote text) (.terminal (.literal text)) := by
  refine .word hg .literal "literal" rfl rfl parse_literal rfl
    (fun rest _ => longest_literal text _) ?_
  intro trees htext
  exact ⟨rfl, by simp [readPrimary, htext, unquote_quote]⟩

theorem Reads.pattern (hg : IsMeta g) {pattern : String} (hpattern : '`' ∉ pattern.toList) :
    Reads g .operand n (fence pattern) (.terminal (.pattern pattern)) := by
  refine .word hg .pattern "regex" rfl rfl parse_fence rfl
    (fun rest _ => longest_fence hpattern _) ?_
  intro trees htext
  exact ⟨rfl, by simp [readPrimary, htext, unfence_fence hpattern]⟩

@[simp] theorem closes_closing (b : Bracket) : closes b.closing = true := by
  cases b <;> rfl

theorem Reads.enclosed (hg : IsMeta g) (b : Bracket) (h : Reads g .choice n w e) :
    Reads g .operand (n + 1) ([b.opening] ++ (layout.margin ++ (w ++ [b.closing]))) (b.wrap e) := by
  have hc : (Kind.bracket b).opens b.opening = true := decide_eq_true rfl
  refine ⟨.cons (opensOperand_of hc), fun _ => by simp, fun rest _ => ?_⟩
  have hclosing : Ahead closes ([b.closing] ++ rest) := .cons (closes_closing b)
  have hinside : Ahead (fun c => !opensBlank c) ((w ++ [b.closing]) ++ rest) := by
    rw [List.append_assoc]
    exact .append h.opens (hclosing.imp (of_contains rfl))
  have hbody : g.Takes (5 * n + 5) (.atom (b.first + 7))
      ([b.opening] ++ (layout.margin ++ (w ++ [b.closing]))) rest (One (Rank.IsRead .choice e)) :=
    .sequence (hg.atom (Bracket.atom rfl))
      (.mark (takes_mark (hg.atom (Bracket.atom rfl))
        (hg.atom (Bracket.atom rfl)) String.toList_ofList)
      (.mark (takes_blank hg (hg.atom (Bracket.atom rfl))
        (hg.atom (Bracket.atom rfl)) layout.margin_blank hinside)
      (.kept (.rule (hg.atom (Bracket.atom rfl)) (h.yields _ hclosing))
      (.last (takes_mark (hg.atom (Bracket.atom rfl))
        (hg.atom (Bracket.atom rfl)) String.toList_ofList)))))
  refine yields_operand hg hc (.of_body (hg.rule b.rule_eq) hbody fun trees htrees => ?_)
  obtain ⟨t, rfl, hsymbol, hread⟩ := htrees
  cases b <;> exact ⟨rfl,
    by simp [readPrimary, readInner, Bracket.symbol, Bracket.wrap, hsymbol, hread]⟩

/-! ### Items -/

/-- The trees of a sign that may be there. -/
def SignTrees (symbol : String) : Option Char → List ParseTree → Prop
  | none => (· = [])
  | some c => One (Spells symbol [c])

theorem takes_sign (hg : IsMeta g) {id a : AtomId} {r : RuleId} {symbol : String}
    {body : AtomId} {source : String} {regex : Regex} {p : Char → Bool}
    (hid : metaAtoms[id]? = some (.repetition a 0 (some 1)))
    (ha : metaAtoms[a]? = some (.rule r)) (hrule : metaRules[r]? = some ⟨symbol, body⟩)
    (hbody : metaAtoms[body]? = some (.pattern source))
    (hparse : Regex.parse source = .ok regex)
    (hlanguage : regex.language = Regex.singletons (byteOf p)) {sign : Option Char}
    (hsign : ∀ c ∈ sign, c.toNat < 128 ∧ p c = true) (hrest : Ahead (fun c => !p c) rest) :
    g.Takes (d + 1) (.atom id) sign.toList rest (SignTrees symbol sign) := by
  cases sign with
  | none =>
      have hrefuses : g.Refuses (d + 1) r rest :=
        .of_pattern hg.toCompiled (hg.rule hrule) (hg.atom hbody)
          hparse ((opensWith_of_singletons hlanguage).not_mem hrest)
      exact .skip (hg.atom hid) (.rule (hg.atom ha) hrefuses)
  | some c =>
      have hyields : g.Yields (d + 1) r [c] rest (Spells symbol [c]) := .of_pattern hg.toCompiled
        (hg.rule hrule) (hg.atom hbody) hparse
        (longest_of_singletons hlanguage (hsign c rfl).1 (hsign c rfl).2 _)
      exact .once (hg.atom hid) (.rule (hg.atom ha) hyields) (List.cons_ne_nil _ _)

theorem takes_prefixSign (hg : IsMeta g) {sign : Option Char}
    (hsign : ∀ c ∈ sign, isPrefix c = true) (hrest : Ahead (fun c => !isPrefix c) rest) :
    g.Takes (d + 1) (.atom 30) sign.toList rest (SignTrees "prefix" sign) := by
  refine takes_sign hg rfl rfl rfl rfl parse_prefixSign language_prefixSign
    (fun c hc => ⟨?_, hsign c hc⟩) hrest
  exact toNat_lt_of_contains (hsign c hc) rfl

theorem takes_suffixSign (hg : IsMeta g) {sign : Option Char}
    (hsign : ∀ c ∈ sign, isSuffix c = true) (hrest : Ahead (fun c => !isSuffix c) rest) :
    g.Takes (d + 1) (.atom 33) sign.toList rest (SignTrees "suffix" sign) := by
  refine takes_sign hg rfl rfl rfl rfl parse_suffixSign language_suffixSign
    (fun c hc => ⟨?_, hsign c hc⟩) hrest
  exact toNat_lt_of_contains (hsign c hc) rfl

/-- The text of a sign, as it is read. -/
def signText (sign : Option Char) : Option String := sign.map fun c => String.ofList [c]

section Signs

variable {sign before behind : Option Char} {symbol s : String} {u v : List ParseTree}
  {t : ParseTree}

theorem textOfChild_append : textOfChild (u ++ v) s = (textOfChild u s).or (textOfChild v s) := by
  rw [textOfChild, List.find?_append, Option.map_or]
  rfl

theorem textOfChild_cons (h : t.symbol ≠ s) : textOfChild (t :: v) s = textOfChild v s := by
  rw [textOfChild, List.find?_cons_of_neg (by simpa using h)]
  rfl

theorem SignTrees.cases (h : SignTrees symbol sign u) :
    (sign = none ∧ u = []) ∨ ∃ c trees, sign = some c ∧ u = [.node symbol trees] ∧
      (ParseTree.node symbol trees).text = String.ofList [c] := by
  cases sign with
  | none => exact .inl ⟨rfl, h⟩
  | some c =>
      obtain ⟨_, rfl, trees, rfl, htext⟩ := h
      exact .inr ⟨c, trees, rfl, rfl, htext⟩

theorem SignTrees.textOfChild_eq (h : SignTrees symbol sign u) (s : String) :
    textOfChild u s = if symbol = s then signText sign else none := by
  rcases h.cases with ⟨rfl, rfl⟩ | ⟨c, trees, rfl, rfl, htext⟩
  · split <;> rfl
  · split
    next heq =>
      have hfirst : (ParseTree.node symbol trees).symbol = s := heq
      rw [textOfChild, List.find?_cons_of_pos (by simpa using hfirst), Option.map_some, htext]
      rfl
    next hne => exact textOfChild_cons hne

theorem readItem_signed (hu : SignTrees "prefix" before u)
    (hv : SignTrees "suffix" behind v) (ht : Rank.IsRead .operand e t) :
    readItem (.node symbol (u ++ t :: v)) = modified (signText before) (signText behind) e := by
  obtain ⟨hsign, hread⟩ := ht
  have hsymbol := hsign
  rw [isSign, Bool.or_eq_false_iff, decide_eq_false_iff_not, decide_eq_false_iff_not] at hsymbol
  have hoperand : readOperand (u ++ t :: v) = e := by
    rcases hu.cases with ⟨-, rfl⟩ | ⟨c, trees, -, rfl, -⟩
    · rw [List.nil_append, readOperand, hsign, if_neg Bool.false_ne_true, hread]
    · have hfirst : isSign (.node "prefix" trees) = true := rfl
      rw [List.singleton_append, readOperand, if_pos hfirst, readOperand, hsign,
        if_neg Bool.false_ne_true, hread]
  rw [readItem, hoperand, textOfChild_append, textOfChild_append, textOfChild_cons hsymbol.1,
    textOfChild_cons hsymbol.2, hu.textOfChild_eq, hu.textOfChild_eq, hv.textOfChild_eq,
    hv.textOfChild_eq]
  simp

end Signs

theorem Reads.signed (hg : IsMeta g) (h : Reads g .operand n w e) {before behind : Option Char}
    (hbefore : ∀ c ∈ before, isPrefix c = true) (hbehind : ∀ c ∈ behind, isSuffix c = true) :
    Reads g .item n (before.toList ++ (w ++ (behind.toList ++ layout.gap)))
      (modified (signText before) (signText behind) e) := by
  have hoperand : ∀ rest, Ahead opensOperand (w ++ rest) :=
    h.opens.of_ne_nil (h.ne_nil (Nat.zero_le 1))
  have hhead : ∀ rest,
      Ahead (fun c => !isPrefix c) ((w ++ (behind.toList ++ layout.gap)) ++ rest) := by
    intro rest
    rw [List.append_assoc]
    exact (hoperand _).imp (apart_symm (of_contains rfl))
  have hname : ∀ rest, Ahead (fun c => !isNameChar c) ((behind.toList ++ layout.gap) ++ rest) := by
    intro rest
    cases behind with
    | none => exact (layout.ahead_gap rest).imp (of_contains rfl)
    | some c => exact (Ahead.cons (hbehind c rfl)).imp (of_contains rfl)
  have hsuffix : ∀ rest, Ahead (fun c => !isSuffix c) (layout.gap ++ rest) := fun rest =>
    (layout.ahead_gap rest).imp (of_contains rfl)
  refine ⟨?_, ?_, fun rest hrest => ?_⟩
  · cases before with
    | none => exact (hoperand _).imp (apart_symm (of_contains rfl))
    | some c => exact (Ahead.cons (hbefore c rfl)).imp (of_contains rfl)
  · simp [layout.gap_ne]
  · refine .of_body (hg.rule rfl) (.sequence (hg.atom rfl)
      (.item (takes_prefixSign hg hbefore (hhead rest))
      (.item (.rule (hg.atom rfl) (h.yields _ (hname rest)))
      (.kept (takes_suffixSign hg hbehind (hsuffix rest))
      (.last (takes_blank hg (hg.atom rfl) (hg.atom rfl) layout.gap_blank hrest))))))
        fun trees htrees => ?_
    obtain ⟨u, _, rfl, hu, _, x, rfl, ⟨t, rfl, ht⟩, hx⟩ := htrees
    exact readItem_signed hu hx ht

theorem Reads.toItem (hg : IsMeta g) (h : Reads g .operand n w e) :
    Reads g .item n (w ++ layout.gap) e := by
  have hnone : ∀ {p : Char → Bool}, ∀ c ∈ (none : Option Char), p c = true :=
    fun c hc => by contradiction
  exact h.signed hg hnone hnone

/-! ### Sequences -/

theorem refuses_item (hg : IsMeta g) (h : Ahead endsBranch rest) : g.Refuses (d + 3) 4 rest := by
  have hsign : g.Takes (d + 2) (.atom 30) (none : Option Char).toList rest _ :=
    takes_prefixSign hg (by simp) (h.imp (of_contains rfl))
  have hoperand : g.Fails (d + 2) (.atom 31) rest :=
    .rule (hg.atom rfl) (refuses_operand hg (h.imp (of_contains rfl)))
  exact .of_body (hg.rule rfl) (.sequence (hg.atom rfl) (.later hsign (.first hoperand)))

theorem readItems_eq {es : List Expr} {trees : List ParseTree}
    (h : List.Forall₂ (Rank.IsRead .item) es trees) : readItems trees = es := by
  induction h with
  | nil => rfl
  | cons ht _ ih => rw [readItems, ih, ht]

section Lists

variable {word : Expr → List Char} {es : List Expr}

theorem Reads.sequence (hg : IsMeta g) (h : ∀ e ∈ es, Reads g .item n (word e) e) :
    Reads g .sequence n (es.flatMap word) (joined .sequence es) := by
  refine ⟨.flatMap fun e he => (h e he).opens, fun hlevel => absurd hlevel (by decide),
    fun rest hrest => ?_⟩
  have hitem : ∀ e es', e :: es' <:+ es →
      g.Takes (5 * n + 3) (.atom 27) (word e) (es'.flatMap word ++ rest)
        (One (Rank.IsRead .item e)) := by
    intro e es' hsuffix
    have hothers : ∀ e' ∈ es', Ahead (Rank.opens .item) (word e') := fun e' he' =>
      (h e' (hsuffix.subset (List.mem_cons_of_mem e he'))).opens
    -- behind the blanks of an item comes the next item or the end of the branch
    have hahead : Ahead (fun c => !opensBlank c) (es'.flatMap word ++ rest) :=
      .append (.flatMap hothers) (hrest.imp (of_contains rfl))
    exact .rule (hg.atom rfl) ((h e (hsuffix.subset List.mem_cons_self)).yields _ hahead)
  have hstop : g.Fails (5 * n + 3) (.atom 27) rest := .rule (hg.atom rfl) (refuses_item hg hrest)
  refine .of_body (hg.rule rfl)
    (.repetition (hg.atom rfl) (.run hitem (fun e he => (h e he).ne_nil (Nat.le_refl 1))
    hstop (Nat.zero_le _))) fun trees htrees => ?_
  show readSequence (.node _ trees) = _
  rw [readSequence, readItems_eq htrees]

/-! ### Choices -/

theorem readSequences_eq {trees : List ParseTree}
    (h : List.Forall₂ (Rank.IsRead .sequence) es trees) : readSequences trees = es := by
  induction h with
  | nil => rfl
  | cons ht _ ih => rw [readSequences, ih, ht]

theorem Reads.choice (hg : IsMeta g) (h : Reads g .sequence n w e)
    (hes : ∀ e ∈ es, Reads g .sequence n (word e) e) :
    Reads g .choice n (w ++ es.flatMap fun e => ['|'] ++ (layout.margin ++ word e))
      (joined .choice (e :: es)) := by
  refine ⟨.append h.opens (.flatMap fun _ _ => .cons rfl), fun hlevel => absurd hlevel (by decide),
    fun rest hrest => ?_⟩
  have hbehind : ∀ es' : List Expr,
      Ahead endsBranch ((es'.flatMap fun e => ['|'] ++ (layout.margin ++ word e)) ++ rest) :=
    fun es' => .append (.flatMap fun _ _ => .cons rfl) (hrest.imp (of_contains rfl))
  have hbranch : ∀ e es', e :: es' <:+ es →
      g.Takes (5 * n + 4) (.atom 24) (['|'] ++ (layout.margin ++ word e))
      ((es'.flatMap fun e => ['|'] ++ (layout.margin ++ word e)) ++ rest)
        (One (Rank.IsRead .sequence e)) := by
    intro e es' hsuffix
    have he := hes e (hsuffix.subset List.mem_cons_self)
    exact .sequence (hg.atom rfl)
      (.mark (takes_mark (hg.atom rfl) (hg.atom rfl) rfl)
      (.mark (takes_blank hg (hg.atom rfl) (hg.atom rfl) layout.margin_blank
        (.append he.opens ((hbehind es').imp (of_contains rfl))))
      (.last (.rule (hg.atom rfl) (he.yields _ (hbehind es'))))))
  have hstop : g.Fails (5 * n + 4) (.atom 24) rest :=
    .sequence (hg.atom rfl) (.first (fails_mark (hg.atom rfl) (hg.atom rfl) rfl
      (hrest.imp (of_contains rfl))))
  refine .of_body (hg.rule rfl) (.sequence (hg.atom rfl)
    (.item (.rule (hg.atom rfl) (h.yields _ (hbehind es)))
    (.last (.repetition (hg.atom rfl) (.run hbranch (fun _ _ => by simp) hstop (Nat.zero_le _))))))
    fun trees htrees => ?_
  obtain ⟨_, v, rfl, ⟨t, rfl, ht⟩, hv⟩ := htrees
  have ht : readSequence t = e := ht
  refine ⟨rfl, ?_⟩
  rw [readAlternatives, List.singleton_append, readSequences, readSequences_eq hv, ht]

end Lists

theorem Reads.toSequence (hg : IsMeta g) (h : Reads g .item n w e) : Reads g .sequence n w e := by
  have hone : Reads g .sequence n ([e].flatMap fun _ => w) (joined .sequence [e]) :=
    .sequence hg (List.forall_mem_singleton.2 h)
  rwa [List.flatMap_singleton] at hone

theorem Reads.toChoice (hg : IsMeta g) (layout : Layout) (h : Reads g .sequence n w e) :
    Reads g .choice n w e := by
  have hone : Reads g .choice n (w ++ ([].flatMap fun _ => ['|'] ++ (layout.margin ++ w)))
      (joined .choice [e]) :=
    .choice hg h (List.forall_mem_nil _)
  rwa [List.flatMap_nil, List.append_nil] at hone

/-! ### Productions -/

theorem yields_production (hg : IsMeta g) {p : Production} (hname : isIdentifier p.name = true)
    (h : Reads g .choice n w p.body) (hrest : Ahead (fun c => !opensBlank c) rest) :
    g.Yields (5 * n + 6) 1 (p.name.toList ++ (layout.margin ++ ([':'] ++ (layout.margin ++
      (w ++ ([';'] ++ layout.margin)))))) rest (readProduction · = some p) := by
  have hcolon : Ahead (fun c => !isNameChar c) ((layout.margin ++ ([':'] ++ (layout.margin ++
      (w ++ ([';'] ++ layout.margin))))) ++ rest) := by
    rw [List.append_assoc]
    exact .append (layout.ahead_margin.imp (of_contains rfl)) (.cons rfl)
  have hend : Ahead closes (([';'] ++ layout.margin) ++ rest) := .cons rfl
  have hbody : Ahead (fun c => !opensBlank c) ((w ++ ([';'] ++ layout.margin)) ++ rest) := by
    rw [List.append_assoc]
    exact .append h.opens (hend.imp (of_contains rfl))
  refine .of_body (hg.rule rfl) (.sequence (hg.atom rfl)
    (.item (.rule (hg.atom rfl) (.of_pattern hg.toCompiled (hg.rule rfl) (hg.atom rfl) parse_name
      (longest_name hname hcolon)))
    (.mark (takes_blank hg (hg.atom rfl) (hg.atom rfl) layout.margin_blank (.cons rfl))
    (.mark (takes_mark (hg.atom rfl) (hg.atom rfl) rfl)
    (.mark (takes_blank hg (hg.atom rfl) (hg.atom rfl) layout.margin_blank hbody)
    (.kept (.rule (hg.atom rfl) (h.yields _ hend))
    (.mark (takes_mark (hg.atom rfl) (hg.atom rfl) rfl)
    (.last (takes_blank hg (hg.atom rfl) (hg.atom rfl) layout.margin_blank hrest)))))))))
    fun trees htrees => ?_
  obtain ⟨_, _, rfl, ⟨t, rfl, -, -, htext⟩, t', rfl, -, hread⟩ := htrees
  show some (Production.mk t.text (readAlternatives t')) = some p
  rw [htext, hread, String.ofList_toList]

theorem refuses_production (hg : IsMeta g) : g.Refuses (d + 2) 1 [] := by
  have hname : g.Refuses (d + 1) 11 [] := refuses_kind hg .name fun c hc => by contradiction
  exact .of_body (hg.rule rfl) (.sequence (hg.atom rfl) (.first (.rule (hg.atom rfl) hname)))

end Seedling.Ebnf
