import Mathlib.Data.List.Induction
import Seedling.Ebnf.Language
import Seedling.Proofs.Grammar.Building

/-!
The words of a language. Its tokens are those that productions declare and those that rules
speak of in upper case; the terminals inside rules that are not the whole body of a declared
token have names of their own, and the lexer knows them before the declared ones.
-/

namespace Seedling.Ebnf

variable {ps : List Production}

/-! ### Names -/

theorem Terminal.tokenName_inj {s t : Terminal} : s.tokenName = t.tokenName ↔ s = t := by
  have hhead : ∀ {s t : Terminal}, s.tokenName = t.tokenName →
      s.tokenName.toList.head? = t.tokenName.toList.head? := fun h => by rw [h]
  constructor
  · intro h
    cases s with
    | literal a =>
        cases t with
        | literal b =>
            have hab : "'" ++ a = "'" ++ b := (String.append_left_inj "'").1 h
            rw [(String.append_right_inj "'").1 hab]
        | pattern b => simpa [tokenName] using hhead h
    | pattern a =>
        cases t with
        | literal b => simpa [tokenName] using hhead h
        | pattern b =>
            have hab : "`" ++ a = "`" ++ b := (String.append_left_inj "`").1 h
            rw [(String.append_right_inj "`").1 hab]
  · rintro rfl
    rfl

theorem Terminal.isTokenName_tokenName (t : Terminal) : isTokenName t.tokenName = false := by
  cases t with
  | literal text =>
      have hquote : Char.isUpper '\x27' = false := rfl
      simp [isTokenName, tokenName, hquote]
  | pattern p =>
      have hquote : Char.isUpper '\x60' = false := rfl
      simp [isTokenName, tokenName, hquote]

theorem Production.isTokenName_of_isToken {p : Production} (h : p.isToken = true) :
    isTokenName p.name = true := by
  rw [isToken, token?] at h
  split at h
  · assumption
  · contradiction

def IsUndeclared (ps : List Production) (name : String) : Prop :=
  isTokenName name = true ∧ ∀ p ∈ ps, p.name ≠ name

/-- The productions speak of tokens: they declare one, or one of their rules names one. -/
def UsesTokens (ps : List Production) : Prop :=
  (∃ p ∈ ps, p.isToken = true) ∨
    ∃ p ∈ ps, p.isToken = false ∧ ∃ name ∈ p.body.names, IsUndeclared ps name

theorem Vocabulary.mem_tokens {name : String} :
    name ∈ (ofProductions ps).tokens ↔
      (∃ p ∈ ps, p.isToken = true ∧ p.name = name) ∨
        ∃ p ∈ ps, p.isToken = false ∧ name ∈ p.body.names ∧ IsUndeclared ps name := by
  simp only [ofProductions, SortedSet.mem_ofList, List.mem_append, List.mem_map, List.mem_filter,
    List.mem_flatMap, IsUndeclared, and_assoc, Bool.not_eq_true', Bool.and_eq_true,
    List.any_eq_false, decide_eq_true_eq, ne_eq]

theorem Vocabulary.mode_eq_tokens : (ofProductions ps).mode = .tokens ↔ UsesTokens ps := by
  have hempty : (ofProductions ps).tokens.isEmpty = false ↔
      ∃ name, name ∈ (ofProductions ps).tokens := by
    rw [SortedSet.isEmpty, List.isEmpty_eq_false_iff_exists_mem]
    rfl
  have hmode : (ofProductions ps).mode = .tokens ↔ (ofProductions ps).tokens.isEmpty = false := by
    rw [mode]
    cases (ofProductions ps).tokens.isEmpty <;> decide
  rw [hmode, hempty, UsesTokens]
  constructor
  · rintro ⟨name, hname⟩
    rcases mem_tokens.1 hname with ⟨p, hp, htoken, -⟩ | ⟨p, hp, hrule, hmem, hmissing⟩
    · exact .inl ⟨p, hp, htoken⟩
    · exact .inr ⟨p, hp, hrule, name, hmem, hmissing⟩
  · rintro (⟨p, hp, htoken⟩ | ⟨p, hp, hrule, name, hmem, hmissing⟩)
    · exact ⟨p.name, mem_tokens.2 (.inl ⟨p, hp, htoken, rfl⟩)⟩
    · exact ⟨name, mem_tokens.2 (.inr ⟨p, hp, hrule, hmem, hmissing⟩)⟩

/-! ### Terminals of rules -/

/-- The declared token whose whole body is a literal; the first one counts. -/
def named? (ps : List Production) : Terminal → Option Production
  | .literal text => ps.find? fun p => p.isToken && p.body.terminal? = some (.literal text)
  | .pattern _ => none

def inlineTerminals (ps : List Production) : List Terminal :=
  (ps.filter (!·.isToken)).flatMap fun p => p.body.terminals

/-- The terminals inside rules that have no name, each once, in the order of their first
appearance. -/
def unnamed (ps : List Production) : List Terminal :=
  ((inlineTerminals ps).filter fun t => (named? ps t).isNone).eraseDups

theorem lookup_literals (text : String) :
    (Vocabulary.ofProductions ps).literals.lookup text =
      (named? ps (.literal text)).map Production.name := by
  show (((ps.filter Production.isToken).filterMap _).lookup text) =
    (ps.find? fun p => p.isToken && p.body.terminal? = some (.literal text)).map Production.name
  induction ps with
  | nil => rfl
  | cons p ps ih =>
      by_cases htoken : p.isToken = true
      · rw [List.filter_cons_of_pos htoken, List.find?_cons, htoken, Bool.true_and]
        cases hbody : p.body with
        | terminal t =>
            cases t with
            | literal text' =>
                rw [List.filterMap_cons_some (by rw [hbody]), List.lookup_cons, ih]
                by_cases heq : text = text'
                · simp [heq, Expr.terminal?]
                · rw [beq_eq_false_iff_ne.2 heq]
                  simp [Ne.symm heq, Expr.terminal?]
            | pattern p' =>
                rw [List.filterMap_cons_none (by rw [hbody]), ih]
                simp [Expr.terminal?]
        | name | sequence | choice | repetition | lookahead | discard | splice =>
            rw [List.filterMap_cons_none (by rw [hbody]), ih]
            simp [Expr.terminal?]
      · rw [List.filter_cons_of_neg htoken, List.find?_cons, ih, eq_false_of_ne_true htoken,
          Bool.false_and]

theorem Vocabulary.declared?_eq (t : Terminal) :
    (ofProductions ps).declared? t = (named? ps t).map Production.name := by
  cases t with
  | literal text => exact lookup_literals text
  | pattern p => rfl

theorem named?_eq_some {t : Terminal} {p : Production} (h : named? ps t = some p) :
    p ∈ ps ∧ p.isToken = true ∧ p.body.terminal? = some t := by
  cases t with
  | literal text =>
      have hp := List.find?_some h
      rw [Bool.and_eq_true, decide_eq_true_eq] at hp
      exact ⟨List.mem_of_find?_eq_some h, hp⟩
  | pattern p => contradiction

theorem mem_inlineTerminals {t : Terminal} :
    t ∈ inlineTerminals ps ↔ ∃ p ∈ ps, p.isToken = false ∧ t ∈ p.body.terminals := by
  simp [inlineTerminals, and_assoc]

theorem mem_unnamed {t : Terminal} :
    t ∈ unnamed ps ↔ t ∈ inlineTerminals ps ∧ named? ps t = none := by
  rw [unnamed, List.mem_eraseDups, List.mem_filter, Option.isNone_iff_eq_none]

/-- Of equal names only the first is kept, and equal names are names of equal terminals. -/
theorem foldl_unseen (ts : List Terminal) :
    ts.foldl (fun seen t => if seen.any fun s => s.tokenName = t.tokenName then seen
      else seen ++ [t]) [] =
        ts.eraseDups ∧ ts.eraseDups.Nodup := by
  induction ts using List.reverseRecOn with
  | nil => exact ⟨rfl, .nil⟩
  | append_singleton ts t ih =>
      have hseen : (ts.eraseDups.any fun s => s.tokenName = t.tokenName) = decide (t ∈ ts) := by
        rw [Bool.eq_iff_iff, List.any_eq_true, decide_eq_true_eq]
        simp only [List.mem_eraseDups, decide_eq_true_eq, Terminal.tokenName_inj]
        exact exists_eq_right
      have herase : (ts ++ [t]).eraseDups = if t ∈ ts then ts.eraseDups
          else ts.eraseDups ++ [t] := by
        rw [List.eraseDups_append]
        by_cases hmem : t ∈ ts
        · simp [List.removeAll, hmem]
        · simp [List.removeAll, hmem, List.eraseDups_cons]
      rw [List.foldl_append, ih.1, herase, List.foldl_cons, List.foldl_nil, hseen]
      refine ⟨by simp only [decide_eq_true_eq], ?_⟩
      split
      · exact ih.2
      · rename_i hmem
        refine List.nodup_append.2 ⟨ih.2, by simp, fun s hs t' ht' heq => hmem ?_⟩
        rw [← List.mem_singleton.1 ht', ← heq]
        exact List.mem_eraseDups.1 hs

theorem Vocabulary.anonymous_eq :
    (ofProductions ps).anonymous (ps.filter (!·.isToken)) = unnamed ps := by
  have hnone : (fun t => ((ofProductions ps).declared? t).isNone) = fun t =>
      (named? ps t).isNone := by
        funext t
        rw [declared?_eq, Option.isNone_map]
  rw [anonymous, hnone, (foldl_unseen _).1]
  rfl

theorem nodup_unnamed : (unnamed ps).Nodup := (foldl_unseen _).2

/-! ### The lexer -/

/-- The names of the lexer's rules: terminals first, declared tokens after them. -/
def lexemes (ps : List Production) : List String :=
  (unnamed ps).map Terminal.tokenName ++ (ps.filter Production.isToken).map Production.name

theorem nodup_lexemes (h : (ps.map Production.name).Nodup) : (lexemes ps).Nodup := by
  refine List.nodup_append.2 ⟨?_, (List.filter_sublist.map Production.name).nodup h, ?_⟩
  · refine List.pairwise_map.2 (nodup_unnamed.imp fun hne heq => hne ?_)
    exact Terminal.tokenName_inj.1 heq
  · intro name hname name' hname' heq
    obtain ⟨t, -, rfl⟩ := List.mem_map.1 hname
    obtain ⟨p, hp, rfl⟩ := List.mem_map.1 hname'
    have hupper := Production.isTokenName_of_isToken (List.mem_filter.1 hp).2
    rw [← heq, t.isTokenName_tokenName] at hupper
    contradiction

theorem nodup_of_duplicate? {seen : List String} (h : duplicate? seen ps = none) :
    (ps.map Production.name).Nodup ∧ ∀ p ∈ ps, p.name ∉ seen := by
  induction ps generalizing seen with
  | nil => simp
  | cons p ps ih =>
      rw [duplicate?] at h
      split at h
      · contradiction
      · rename_i hp
        obtain ⟨hnodup, hrest⟩ := ih h
        refine ⟨List.nodup_cons.2 ⟨fun hmem => ?_, hnodup⟩, List.forall_mem_cons.2 ⟨hp, ?_⟩⟩
        · obtain ⟨q, hq, hname⟩ := List.mem_map.1 hmem
          exact hrest q hq (hname ▸ List.mem_cons_self)
        · exact fun q hq hseen => hrest q hq (List.mem_cons_of_mem _ hseen)

theorem map_snd_of_mapM {α β ε : Type} {f : α → Except ε β} {name : α → String} {l : List α}
    {rs : List (β × String)} (h : (l.mapM fun a => do return (← f a, name a)) = .ok rs) :
    rs.map Prod.snd = l.map name := by
  induction l generalizing rs with
  | nil =>
      cases h
      rfl
  | cons a l ih =>
      rw [List.mapM_cons] at h
      obtain ⟨r, hr, h⟩ := Grammar.bind_eq_ok.1 h
      obtain ⟨b, -, hb⟩ := Grammar.bind_eq_ok.1 hr
      obtain ⟨rs', hrs', h⟩ := Grammar.bind_eq_ok.1 h
      cases hb
      cases h
      rw [List.map_cons, List.map_cons, ih hrs']

theorem lexerRules_eq_ok {rules : List (Regex × String)}
    (h : lexerRules (.ofProductions ps) ps = .ok rules) :
    ∃ first rest, rules = first ++ rest ∧
      ((unnamed ps).mapM fun t => do return (← t.regex, t.tokenName)) = .ok first ∧
      ((ps.filter Production.isToken).mapM fun p => do return (← tokenRegex p, p.name)) =
        .ok rest := by
  rw [lexerRules, Vocabulary.anonymous_eq] at h
  obtain ⟨first, hfirst, h⟩ := Grammar.bind_eq_ok.1 h
  obtain ⟨rest, hrest, h⟩ := Grammar.bind_eq_ok.1 h
  cases h
  exact ⟨first, rest, rfl, hfirst, hrest⟩

theorem map_snd_lexerRules {rules : List (Regex × String)}
    (h : lexerRules (.ofProductions ps) ps = .ok rules) : rules.map Prod.snd = lexemes ps := by
  obtain ⟨first, rest, rfl, hfirst, hrest⟩ := lexerRules_eq_ok h
  rw [List.map_append, map_snd_of_mapM hfirst, map_snd_of_mapM hrest, lexemes]

theorem lexerOf_eq_ok {lexer? : Option Lexer} (h : lexerOf (.ofProductions ps) ps = .ok lexer?) :
    (lexer?.isSome = true ↔ UsesTokens ps ∧ lexemes ps ≠ []) ∧
      ∀ lexer ∈ lexer?, ∃ rules, lexerRules (.ofProductions ps) ps = .ok rules ∧
        lexer = .ofRules rules (if rules.any (·.2 = ignoredName) then [ignoredName] else []) := by
  rw [← Vocabulary.mode_eq_tokens]
  rw [lexerOf] at h
  cases hmode : (Vocabulary.ofProductions ps).mode with
  | text =>
      rw [hmode] at h
      cases h
      simp
  | tokens =>
      rw [hmode] at h
      obtain ⟨rules, hrules, h⟩ := Grammar.bind_eq_ok.1 h
      have hempty : rules.isEmpty = true ↔ lexemes ps = [] := by
        rw [← map_snd_lexerRules hrules, List.map_eq_nil_iff, List.isEmpty_iff]
      cases h
      by_cases hnil : rules.isEmpty = true
      · rw [if_pos hnil]
        simp [hempty.1 hnil]
      · rw [if_neg hnil]
        refine ⟨by simp [mt hempty.2 hnil], fun lexer hlexer => ?_⟩
        exact ⟨rules, hrules, (Option.mem_some.1 hlexer).symm⟩

end Seedling.Ebnf
