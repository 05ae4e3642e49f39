import Seedling.Proofs.Ebnf.Lowering
import Seedling.Proofs.Lexer.MaximalMunch
import Seedling.Proofs.Regex.Combinators
import Seedling.Proofs.Regex.Untagged

/-!
Keywords and the tokens they are read as. A literal inside a rule that no declared token stands
for has a rule of the lexer to itself, before all declared ones, so its own text is read as that
token. A literal that is the whole body of a declared token is that token; its text is read as
the first declared token that has it, which may be another one.
-/

namespace Seedling

@[simp] theorem Text.bytes_inj {s t : String} : bytes s = bytes t ↔ s = t := by
  constructor
  · intro h
    rw [← decode_bytes s, h, decode_bytes]
  · rintro rfl
    rfl

namespace Lexer

open Automaton Source

variable {rules : List (Regex × String)}

/-- Where names differ, the first rule that has a word names it. -/
theorem names_of_first {before after : List (Regex × String)} {rule : Regex × String}
    {w : List UInt8}
    (hsplit : rules = before ++ rule :: after) (hnodup : (rules.map Prod.snd).Nodup)
    (hrule : w ∈ rule.1.language) (hbefore : ∀ r ∈ before, w ∉ r.1.language) :
    Names rules w rule.2 := by
  subst hsplit
  refine ⟨⟨rule, List.mem_append_right _ List.mem_cons_self, hrule, rfl⟩, fun other hother hw => ?_⟩
  rcases List.mem_append.1 hother with hother | hother
  · exact absurd hw (hbefore other hother)
  · rw [List.map_append, List.map_cons, List.nodup_append] at hnodup
    have hlater : ∀ r ∈ rule :: after, r.2 ∉ before.map Prod.snd := by
      intro r hr hmem
      exact hnodup.2.2 _ hmem r.2 (List.mem_map_of_mem hr) rfl
    rw [List.map_append, List.map_cons, rank, rank,
      List.idxOf_append_of_notMem (hlater rule List.mem_cons_self),
      List.idxOf_append_of_notMem (hlater other hother), List.idxOf_cons_self]
    omega

/-- A text that is a word of some rule is one token. -/
theorem tokenize_word (hrules : ∀ rule ∈ rules, rule.1.Untagged) (ignored : List String)
    {text name : String} (hne : text ≠ "") (hnames : Names rules (Text.bytes text) name) :
    (ofRules rules ignored).tokenize text false =
      .ok (if name ∈ ignored then [] else [⟨name, text, .start⟩]) := by
  have hpos : 0 < (Text.bytes text).length := by
    refine List.length_pos_iff.2 fun hnil => hne (Text.bytes_inj.1 ?_)
    rw [hnil]
    rfl
  have hslice : slice (Text.bytes text) 0 (Text.bytes text).length = Text.bytes text := by
    simp [slice]
  have hmatches : Matches rules (Text.bytes text) := by
    obtain ⟨rule, hrule, hw, -⟩ := hnames.declared
    exact ⟨rule, hrule, hw⟩
  have hgreatest : IsGreatest (tokenEnds rules (Text.bytes text) 0) (Text.bytes text).length :=
    ⟨⟨hpos, Nat.le_refl _, hslice.symm ▸ hmatches⟩, fun _ hstop => hstop.2.1⟩
  have hend : Tokenizes rules ignored (Text.bytes text) false (Text.bytes text).length
      (.ok []) := .finish
  have htokenizes := Tokenizes.token hgreatest (hslice.symm ▸ hnames) hend
  rw [hslice, Text.decode_bytes] at htokenizes
  exact (tokenizes_drainFrom (r := (ofRules rules ignored).runner text false) hrules rfl
    (Nat.zero_le _)).unique htokenizes

end Lexer

namespace Ebnf

open Grammar (bind_eq_ok)

variable {ps : List Production} {rules : List (Regex × String)} {q : String} {w : List UInt8}

/-! ### Words of tokens -/

/-- The terminal can be read, and has the word. -/
def Terminal.Has (t : Terminal) (w : List UInt8) : Prop := ∃ r, t.regex = .ok r ∧ w ∈ r.language

/-- The production declares a token, and one of its terminals has the word. -/
def Production.Has (p : Production) (w : List UInt8) : Prop :=
  ∃ ts, p.token? = some ts ∧ ∃ t ∈ ts, t.Has w

theorem Terminal.untagged {t : Terminal} {r : Regex} (h : t.regex = .ok r) : r.Untagged := by
  cases t with
  | literal text =>
      cases h
      trivial
  | pattern p => exact Regex.untagged_of_parse h

@[simp] theorem Terminal.has_literal {text : String} :
    (Terminal.literal text).Has w ↔ w = Text.bytes text := by
  constructor
  · rintro ⟨r, hr, hw⟩
    cases hr
    exact hw
  · rintro rfl
    exact ⟨_, rfl, rfl⟩

theorem mem_mapM_iff {α β ε : Type} {f : α → Except ε β} {l : List α} {rs : List β}
    (h : l.mapM f = .ok rs) {r : β} : r ∈ rs ↔ ∃ a ∈ l, f a = .ok r := by
  constructor
  · intro hr
    obtain ⟨i, hi⟩ := List.getElem?_of_mem hr
    obtain ⟨a, ha, hok⟩ := Grammar.getElem?_of_mapM h hi
    exact ⟨a, List.mem_of_getElem? ha, hok⟩
  · rintro ⟨a, ha, hok⟩
    obtain ⟨i, hi⟩ := List.getElem?_of_mem ha
    obtain ⟨r', hr', hok'⟩ := Grammar.getElem?_mapM h hi
    cases hok.symm.trans hok'
    exact List.mem_of_getElem? hr'

/-- The regular expression of a declared token has the words of its terminals, and no tags. -/
theorem tokenRegex_spec {p : Production} {r : Regex} (htoken : p.isToken = true)
    (h : tokenRegex p = .ok r) : r.Untagged ∧ (w ∈ r.language ↔ p.Has w) := by
  obtain ⟨ts, hts⟩ := Option.isSome_iff_exists.1 htoken
  have hbody : p.body.tokenBody? = some ts := by
    rw [Production.token?, if_pos (Production.isTokenName_of_isToken htoken)] at hts
    exact hts
  have hhas : p.Has w ↔ ∃ t ∈ ts, t.Has w := by
    rw [Production.Has, hts]
    simp
  rw [hhas]
  cases hp : p.body with
  | terminal t =>
      rw [hp] at hbody
      cases hbody
      rw [tokenRegex, hp] at h
      refine ⟨Terminal.untagged h, ?_⟩
      simp [Terminal.Has, h]
  | choice items =>
      simp only [tokenRegex, hp, hts, Option.getD_some] at h
      obtain ⟨rs, hrs, h⟩ := bind_eq_ok.1 h
      cases h
      refine ⟨Regex.untagged_alternatives fun r hr => ?_, ?_⟩
      · obtain ⟨t, -, ht⟩ := (mem_mapM_iff hrs).1 hr
        exact Terminal.untagged ht
      · rw [Regex.mem_language_alternatives]
        constructor
        · rintro ⟨r, hr, hw⟩
          obtain ⟨t, ht, hregex⟩ := (mem_mapM_iff hrs).1 hr
          exact ⟨t, ht, r, hregex, hw⟩
        · rintro ⟨t, ht, r, hregex, hw⟩
          exact ⟨r, (mem_mapM_iff hrs).2 ⟨t, ht, hregex⟩, hw⟩
  | name | sequence | repetition | lookahead | discard | splice =>
      rw [hp] at hbody
      contradiction

/-! ### Rules of the lexer -/

theorem exists_of_mem_mapM {α β ε : Type} {f : α → Except ε β} {name : α → String} {l : List α}
    {rs : List (β × String)} (h : (l.mapM fun a => do return (← f a, name a)) = .ok rs)
    {rule : β × String} (hrule : rule ∈ rs) : ∃ a ∈ l, f a = .ok rule.1 := by
  obtain ⟨a, ha, hok⟩ := (mem_mapM_iff h).1 hrule
  obtain ⟨r, hr, hok⟩ := bind_eq_ok.1 hok
  cases hok
  exact ⟨a, ha, hr⟩

theorem mapM_split {α β ε : Type} {f : α → Except ε β} {name : α → String}
    {before after : List α} {a : α} {rs : List (β × String)}
    (h : ((before ++ a :: after).mapM fun a => do return (← f a, name a)) = .ok rs) :
    ∃ earlier r later, rs = earlier ++ (r, name a) :: later ∧ f a = .ok r ∧
      (before.mapM fun a => do return (← f a, name a)) = .ok earlier := by
  rw [List.mapM_append, List.mapM_cons] at h
  obtain ⟨earlier, hearlier, h⟩ := bind_eq_ok.1 h
  obtain ⟨rest, hrest, h⟩ := bind_eq_ok.1 h
  obtain ⟨pair, hpair, hrest⟩ := bind_eq_ok.1 hrest
  obtain ⟨later, -, hrest⟩ := bind_eq_ok.1 hrest
  obtain ⟨r, hr, hpair⟩ := bind_eq_ok.1 hpair
  cases hpair
  cases hrest
  cases h
  exact ⟨earlier, r, later, rfl, hr, hearlier⟩

theorem untagged_lexerRules (h : lexerRules (.ofProductions ps) ps = .ok rules) :
    ∀ rule ∈ rules, rule.1.Untagged := by
  obtain ⟨first, rest, rfl, hfirst, hrest⟩ := lexerRules_eq_ok h
  refine List.forall_mem_append.2 ⟨fun rule hrule => ?_, fun rule hrule => ?_⟩
  · obtain ⟨t, -, ht⟩ := exists_of_mem_mapM hfirst hrule
    exact Terminal.untagged ht
  · obtain ⟨p, hp, hregex⟩ := exists_of_mem_mapM hrest hrule
    exact (tokenRegex_spec (w := []) (List.mem_filter.1 hp).2 hregex).1

/-- The first of the declared tokens that has the word. -/
def IsFirst (ps : List Production) (w : List UInt8) (p : Production) : Prop :=
  p.Has w ∧ ∃ before after, ps.filter Production.isToken = before ++ p :: after ∧
    ∀ earlier ∈ before, ¬earlier.Has w

theorem IsFirst.mem {p : Production} (h : IsFirst ps w p) : p ∈ ps := by
  obtain ⟨-, before, after, hsplit, -⟩ := h
  have hmem : p ∈ ps.filter Production.isToken := by
    rw [hsplit]
    exact List.mem_append_right _ List.mem_cons_self
  exact (List.mem_filter.1 hmem).1

theorem exists_isFirst {p : Production} (hp : p ∈ ps) (hhas : p.Has w) :
    ∃ first, IsFirst ps w first := by
  classical
  have hmem : p ∈ ps.filter Production.isToken := by
    obtain ⟨ts, hts, -⟩ := hhas
    exact List.mem_filter.2 ⟨hp, by rw [Production.isToken, hts]; rfl⟩
  have hsome : ((ps.filter Production.isToken).find? fun p => decide (p.Has w)).isSome = true :=
    List.find?_isSome.2 ⟨p, hmem, decide_eq_true hhas⟩
  obtain ⟨first, hfirst⟩ := Option.isSome_iff_exists.1 hsome
  obtain ⟨hhas, before, after, hsplit, hbefore⟩ := List.find?_eq_some_iff_append.1 hfirst
  refine ⟨first, of_decide_eq_true hhas, before, after, hsplit, fun earlier hearlier => ?_⟩
  simpa using hbefore earlier hearlier

theorem has_of_named? {p : Production} (h : named? ps (.literal q) = some p) :
    p.Has (Text.bytes q) := by
  obtain ⟨-, htoken, hbody⟩ := named?_eq_some h
  have hts : p.token? = some [.literal q] := by
    cases hp : p.body with
    | terminal t =>
        rw [hp] at hbody
        cases hbody
        rw [Production.token?, if_pos (Production.isTokenName_of_isToken htoken), hp]
        rfl
    | name | sequence | choice | repetition | lookahead | discard | splice =>
        rw [hp] at hbody
        contradiction
  exact ⟨_, hts, _, List.mem_singleton_self _, Terminal.has_literal.2 rfl⟩

section Words

variable (hrules : lexerRules (.ofProductions ps) ps = .ok rules)
  (hnodup : (ps.map Production.name).Nodup)
  (hinline : ∀ t ∈ inlineTerminals ps, ∃ s, t = .literal s)
include hrules hnodup hinline

omit hrules hnodup in
theorem eq_of_has {t : Terminal} (ht : t ∈ unnamed ps) (h : t.Has (Text.bytes q)) :
    t = .literal q := by
  obtain ⟨s, rfl⟩ := hinline t (mem_unnamed.1 ht).1
  rw [Terminal.has_literal, Text.bytes_inj] at h
  rw [h]

theorem names_unnamed (hq : .literal q ∈ unnamed ps) :
    Lexer.Names rules (Text.bytes q) (Terminal.literal q).tokenName := by
  have hnames := map_snd_lexerRules hrules
  obtain ⟨first, rest, rfl, hfirst, -⟩ := lexerRules_eq_ok hrules
  obtain ⟨before, after, hsplit⟩ := List.append_of_mem hq
  have hunnamed := @nodup_unnamed ps
  rw [hsplit] at hfirst hunnamed
  obtain ⟨earlier, r, later, rfl, hr, hearlier⟩ := mapM_split hfirst
  cases hr
  have hrulesplit :
      (earlier ++ (Regex.literal (Text.bytes q), (Terminal.literal q).tokenName) :: later) ++ rest =
        earlier ++
          (Regex.literal (Text.bytes q), (Terminal.literal q).tokenName) :: (later ++ rest) := by
    simp
  refine Lexer.names_of_first hrulesplit (hnames ▸ nodup_lexemes hnodup) rfl fun rule hrule hw => ?_
  obtain ⟨t, ht, hregex⟩ := exists_of_mem_mapM hearlier hrule
  have hmem : t ∈ unnamed ps := hsplit ▸ List.mem_append_left _ ht
  obtain rfl := eq_of_has hinline hmem ⟨_, hregex, hw⟩
  exact (List.nodup_append.1 hunnamed).2.2 _ ht _ List.mem_cons_self rfl

theorem names_named {p : Production} (hnamed : (named? ps (.literal q)).isSome = true)
    (hp : IsFirst ps (Text.bytes q) p) : Lexer.Names rules (Text.bytes q) p.name := by
  have hnames := map_snd_lexerRules hrules
  obtain ⟨first, rest, rfl, hfirst, hrest⟩ := lexerRules_eq_ok hrules
  obtain ⟨hhas, before, after, hsplit, hbefore⟩ := hp
  have htoken : ∀ p' ∈ before ++ p :: after, p'.isToken = true := by
    intro p' hp'
    rw [← hsplit] at hp'
    exact (List.mem_filter.1 hp').2
  rw [hsplit] at hrest
  obtain ⟨earlier, r, later, rfl, hr, hearlier⟩ := mapM_split hrest
  have hrulesplit : first ++ (earlier ++ (r, p.name) :: later) = (first ++ earlier) ++
      (r, p.name) :: later :=
    (List.append_assoc ..).symm
  have hmem : p ∈ before ++ p :: after := List.mem_append_right _ List.mem_cons_self
  refine Lexer.names_of_first hrulesplit (hnames ▸ nodup_lexemes hnodup)
    ((tokenRegex_spec (htoken p hmem) hr).2.2 hhas) (List.forall_mem_append.2 ⟨?_, ?_⟩)
  · intro rule hrule hw
    obtain ⟨t, ht, hregex⟩ := exists_of_mem_mapM hfirst hrule
    obtain rfl := eq_of_has hinline ht ⟨_, hregex, hw⟩
    rw [(mem_unnamed.1 ht).2] at hnamed
    contradiction
  · intro rule hrule hw
    obtain ⟨p', hp', hregex⟩ := exists_of_mem_mapM hearlier hrule
    exact hbefore p' hp' ((tokenRegex_spec (htoken p' (List.mem_append_left _ hp')) hregex).2.1 hw)

end Words

/-! ### The text of a literal -/

theorem mem_ignored {name : String} (h : name ∈ rules.map Prod.snd) :
    (name ∈ if rules.any (·.2 = ignoredName) then [ignoredName] else []) ↔ name = ignoredName := by
  split
  · exact List.mem_singleton
  · rename_i hnone
    obtain ⟨rule, hrule, rfl⟩ := List.mem_map.1 h
    refine ⟨fun hmem => absurd hmem List.not_mem_nil, fun heq => absurd ?_ hnone⟩
    exact List.any_eq_true.2 ⟨rule, hrule, decide_eq_true heq⟩

theorem name_mem_of_names {name : String} (h : Lexer.Names rules w name) :
    name ∈ rules.map Prod.snd := by
  obtain ⟨rule, hrule, -, rfl⟩ := h.declared
  exact List.mem_map_of_mem hrule

section Literals

variable {l : Language} {lexer : Lexer} (hl : Language.ofProductions ps = .ok l)
  (hlexer : l.lexer = some lexer)
  (hinline : ∀ t ∈ inlineTerminals ps, ∃ s, t = .literal s) (hne : q ≠ "")
include hl hlexer hinline hne

/-- A literal without a name is read as the token that has its own. -/
theorem tokenize_unnamed (hq : .literal q ∈ unnamed ps) :
    lexer.tokenize q false = .ok [⟨(Terminal.literal q).tokenName, q, .start⟩] := by
  obtain ⟨hnodup, hof, -⟩ := ofProductions_eq_ok hl
  obtain ⟨rules, hrules, rfl⟩ := (lexerOf_eq_ok hof).2 lexer hlexer
  have hnames := names_unnamed hrules hnodup hinline hq
  have hkept : (Terminal.literal q).tokenName ≠ ignoredName := by
    intro heq
    have hupper := (Terminal.literal q).isTokenName_tokenName
    rw [heq] at hupper
    contradiction
  rw [Lexer.tokenize_word (untagged_lexerRules hrules) _ hne hnames,
    if_neg (mt (mem_ignored (name_mem_of_names hnames)).1 hkept)]

/-- A literal that is a declared token is read as the first declared token that has it. -/
theorem tokenize_named (hnamed : (named? ps (.literal q)).isSome = true) {first : Production}
    (hfirst : IsFirst ps (Text.bytes q) first) :
    lexer.tokenize q false = .ok (if first.name = ignoredName then []
      else [⟨first.name, q, .start⟩]) := by
  obtain ⟨hnodup, hof, -⟩ := ofProductions_eq_ok hl
  obtain ⟨rules, hrules, rfl⟩ := (lexerOf_eq_ok hof).2 lexer hlexer
  have hnames := names_named hrules hnodup hinline hnamed hfirst
  rw [Lexer.tokenize_word (untagged_lexerRules hrules) _ hne hnames]
  simp only [mem_ignored (name_mem_of_names hnames)]

end Literals

theorem terminalAtom_literal {l : Language} {lexer : Lexer} (hl : Language.ofProductions ps = .ok l)
    (hlexer : l.lexer = some lexer) (hq : .literal q ∈ inlineTerminals ps) :
    (Vocabulary.ofProductions ps).terminalAtom (.literal q) =
        .token (((named? ps (.literal q)).map Production.name).getD
          (Terminal.literal q).tokenName) ∧
      (Vocabulary.ofProductions ps).terminalAtom (.literal q) ∈ l.grammar.atoms := by
  obtain ⟨-, hof, target, hatoms⟩ := ofProductions_eq_ok hl
  have huses : UsesTokens ps := ((lexerOf_eq_ok hof).1.1 (by rw [hlexer]; rfl)).1
  obtain ⟨p, hp, hrule, hmem⟩ := mem_inlineTerminals.1 hq
  refine ⟨terminalAtom_eq huses _, ?_⟩
  rw [hatoms, mem_resolved (by rw [mode?_terminalAtom]; rfl)]
  exact ⟨p, hp, hrule, List.mem_append_right _ (List.mem_map_of_mem hmem)⟩

/-- The text of a literal inside a rule, where all terminals of rules are literals, is read as
the token that the grammar has for it, unless a declared token stands for the literal and it is
ignored or another one is declared before it that has the same text; then it is read as the
first declared token that has it. -/
theorem tokenize_literal {text : String} {l : Language} {lexer : Lexer}
    (hl : Language.ofText text = .ok l) (hlexer : l.lexer = some lexer)
    (hps : productions text = .ok ps) (hinline : ∀ t ∈ inlineTerminals ps, ∃ s, t = .literal s)
    (hq : .literal q ∈ inlineTerminals ps) (hne : q ≠ "") :
    ∃ name, (Vocabulary.ofProductions ps).terminalAtom (.literal q) = .token name ∧
      .token name ∈ l.grammar.atoms ∧
      ((∃ token, lexer.tokenize q false = .ok [token] ∧ token.name = name) ↔
        ∀ p, named? ps (.literal q) = some p → p.name ≠ ignoredName ∧ IsFirst ps (Text.bytes q) p) ∧
      (named? ps (.literal q) = none → lexer.tokenize q false = .ok [⟨name, q, .start⟩]) ∧
      ∀ p, named? ps (.literal q) = some p → ∃ first, IsFirst ps (Text.bytes q) first ∧
        lexer.tokenize q false =
          .ok (if first.name = ignoredName then [] else [⟨first.name, q, .start⟩]) := by
  obtain ⟨ps', hps', hl⟩ := bind_eq_ok.1 hl
  cases hps'.symm.trans hps
  obtain ⟨hatom, hmem⟩ := terminalAtom_literal hl hlexer hq
  refine ⟨_, hatom, hatom ▸ hmem, ?_⟩
  cases hnamed : named? ps (.literal q) with
  | none =>
      have hread := tokenize_unnamed hl hlexer hinline hne (mem_unnamed.2 ⟨hq, hnamed⟩)
      exact ⟨iff_of_true ⟨_, hread, rfl⟩ (by simp), fun _ => hread, by simp⟩
  | some p =>
      have hsome : (named? ps (.literal q)).isSome = true := by rw [hnamed]; rfl
      obtain ⟨hp, htoken, -⟩ := named?_eq_some hnamed
      obtain ⟨first, hfirst⟩ := exists_isFirst hp (has_of_named? hnamed)
      have hread := tokenize_named hl hlexer hinline hne hsome hfirst
      refine ⟨⟨?_, fun h => ?_⟩, by simp, fun _ _ => ⟨first, hfirst, hread⟩⟩
      · rintro ⟨token, htokenize, hname⟩ _ heq
        cases heq
        rw [hread, Except.ok.injEq] at htokenize
        split at htokenize
        · contradiction
        · rename_i hkept
          cases htokenize
          -- equal names are names of the same production
          obtain ⟨hnodup, -⟩ := ofProductions_eq_ok hl
          obtain rfl : first = p := List.inj_on_of_nodup_map hnodup hfirst.mem hp hname
          exact ⟨hkept, hfirst⟩
      · obtain ⟨hkept, hp⟩ := h p rfl
        have hread := tokenize_named hl hlexer hinline hne hsome hp
        rw [if_neg hkept] at hread
        exact ⟨_, hread, rfl⟩

theorem inlineTerminals_keywords : inlineTerminals keywords = [.literal "if", .literal "!"] := by
  decide +kernel

theorem inline_keywords : ∀ t ∈ inlineTerminals keywords, ∃ s, t = .literal s := by
  simp [inlineTerminals_keywords]

def keywordFirst : List Production :=
  [⟨"s", .sequence [.terminal (.literal "if"), .name "NAME"]⟩, ⟨"IF", .terminal (.literal "if")⟩,
    ⟨"NAME", .terminal (.pattern "[a-z]+")⟩]

def keywordFirstText : String := "s:'if' NAME ;IF:'if' ;NAME:`[a-z]+` ;"

theorem productions_keywordFirst : productions keywordFirstText = .ok keywordFirst := by
  have hprint : print .narrow keywordFirst = keywordFirstText := by
    have hchars : Layout.narrow.margin ++ keywordFirst.flatMap (Production.chars .narrow) =
        keywordFirstText.toList := by decide +kernel
    rw [print, hchars, String.ofList_toList]
  rw [← hprint]
  refine productions_print .narrow (by simp [keywordFirst]) ?_ ?_ ?_
  · simp [keywordFirst]
    decide
  · simp [keywordFirst, Production.nesting]
    decide
  · rw [hprint]
    decide

set_option maxRecDepth 4000 in
theorem isSome_lexer_keywordFirst :
    (Language.ofProductions keywordFirst).map (fun l => l.lexer.isSome) = .ok true := by
  with_unfolding_all rfl

/-- A literal that has no name, and one that is a declared token. -/
theorem tokenize_literal_keywords :
    (∃ l lexer, Language.ofText keywordsText = .ok l ∧ l.lexer = some lexer ∧
      productions keywordsText = .ok keywords ∧
      (∀ t ∈ inlineTerminals keywords, ∃ s, t = .literal s) ∧
      .literal "!" ∈ inlineTerminals keywords ∧ "!" ≠ "" ∧
      (Vocabulary.ofProductions keywords).terminalAtom (.literal "!") = .token "'!'" ∧
      lexer.tokenize "!" false = .ok [⟨"'!'", "!", .start⟩]) ∧
    ∃ l lexer, Language.ofText keywordFirstText = .ok l ∧ l.lexer = some lexer ∧
      productions keywordFirstText = .ok keywordFirst ∧
      (∀ t ∈ inlineTerminals keywordFirst, ∃ s, t = .literal s) ∧
      .literal "if" ∈ inlineTerminals keywordFirst ∧ "if" ≠ "" ∧
      (Vocabulary.ofProductions keywordFirst).terminalAtom (.literal "if") = .token "IF" ∧
      ∃ token, lexer.tokenize "if" false = .ok [token] ∧ token.name = "IF" := by
  constructor
  · obtain ⟨l, lexer, hl, hlexer⟩ := exists_language_keywords
    have hq : .literal "!" ∈ inlineTerminals keywords := by simp [inlineTerminals_keywords]
    have hatom : (Vocabulary.ofProductions keywords).terminalAtom (.literal "!") =
        .token "'!'" := by
      decide +kernel
    obtain ⟨name, hname, -, -, hunnamed, -⟩ :=
      tokenize_literal hl hlexer productions_keywords inline_keywords hq (by decide)
    cases hname.symm.trans hatom
    exact ⟨l, lexer, hl, hlexer, productions_keywords, inline_keywords, hq, by decide, hatom,
      hunnamed (by decide +kernel)⟩
  · obtain ⟨l, lexer, hl, hlexer⟩ :=
      exists_language_of_isSome productions_keywordFirst isSome_lexer_keywordFirst
    have hterminals : inlineTerminals keywordFirst = [.literal "if"] := by decide +kernel
    have hinline : ∀ t ∈ inlineTerminals keywordFirst, ∃ s, t = .literal s := by simp [hterminals]
    have hq : .literal "if" ∈ inlineTerminals keywordFirst := by simp [hterminals]
    have hatom : (Vocabulary.ofProductions keywordFirst).terminalAtom (.literal "if") =
        .token "IF" := by
      decide +kernel
    have hnamed : named? keywordFirst (.literal "if") =
        some ⟨"IF", .terminal (.literal "if")⟩ := rfl
    obtain ⟨name, hname, -, hiff, -⟩ :=
      tokenize_literal hl hlexer productions_keywordFirst hinline hq (by decide)
    cases hname.symm.trans hatom
    refine ⟨l, lexer, hl, hlexer, productions_keywordFirst, hinline, hq, by decide, hatom,
      hiff.2 fun p hp => ?_⟩
    cases hnamed.symm.trans hp
    refine ⟨by decide, has_of_named? hnamed, [], [⟨"NAME", .terminal (.pattern "[a-z]+")⟩], rfl, ?_⟩
    exact List.forall_mem_nil _

theorem has_name_if :
    (Production.mk "NAME" (.terminal (.pattern "[a-z]+"))).Has (Text.bytes "if") := by
  have hparse : Regex.parse "[a-z]+" = .ok (.plus (.range 97 122)) := by with_unfolding_all rfl
  have hbytes : Text.bytes "if" = [105] ++ ([102] ++ []) := by decide +kernel
  refine ⟨[.pattern "[a-z]+"], by decide +kernel, _, List.mem_singleton_self _, _, hparse, ?_⟩
  have hletter : ∀ b : UInt8, 97 ≤ b → b ≤ 122 → [b] ∈ (Regex.range 97 122).language :=
    fun b hlo hhi => ⟨b, hlo, hhi, rfl⟩
  rw [hbytes]
  exact Language.append_mem_mul (hletter 105 (by decide) (by decide))
    (Regex.append_mem_kstar (hletter 102 (by decide) (by decide)) (Language.nil_mem_kstar _))

/-- The keyword in the rule is declared behind names, which have its text too. -/
theorem tokenize_keyword_as_name :
    ∃ l lexer, Language.ofText keywordsText = .ok l ∧ l.lexer = some lexer ∧
      productions keywordsText = .ok keywords ∧
        (∀ t ∈ inlineTerminals keywords, ∃ s, t = .literal s) ∧
      .literal "if" ∈ inlineTerminals keywords ∧ "if" ≠ "" ∧
      (Vocabulary.ofProductions keywords).terminalAtom (.literal "if") = .token "IF" ∧
      lexer.tokenize "if" false = .ok [⟨"NAME", "if", .start⟩] := by
  obtain ⟨l, lexer, hl, hlexer⟩ := exists_language_keywords
  obtain ⟨ps, hps, hof⟩ := bind_eq_ok.1 hl
  cases hps.symm.trans productions_keywords
  have hfirst : IsFirst keywords (Text.bytes "if") ⟨"NAME", .terminal (.pattern "[a-z]+")⟩ :=
    ⟨has_name_if, [], [⟨"IF", .terminal (.literal "if")⟩], rfl, List.forall_mem_nil _⟩
  have hread := tokenize_named hof hlexer inline_keywords (by decide) (by decide +kernel) hfirst
  exact ⟨l, lexer, hl, hlexer, hps, inline_keywords, by simp [inlineTerminals_keywords], by decide,
    by decide +kernel, hread⟩

end Ebnf

end Seedling
