import Seedling.Parse.Input
import Seedling.Proofs.Lexer.MaximalMunch
import Seedling.Proofs.Text.Lossy

/-!
Where tokens end. The bytes that a lexer takes for its tokens lie one behind the other in the
text, for any table. By its own account a token ends where its text would end: that is the text
of its bytes, with replacement characters for the parts of characters that a table may cut off,
and it is longer than the bytes unless they are cut where a reader of the text would not notice.
-/

namespace Seedling.Lexer

open Source
open Text (bytes encoded)

/-- A token that the lexer finds in a text, and the place behind the bytes that it takes for it. -/
inductive Takes (lexer : Lexer) (text : List UInt8) : Token → Nat → Prop where
  | word {p n : Nat} {b : UInt8} {rest : List UInt8} {token : Token} :
      text.drop p = b :: rest → lexer.step (.ofOffset text p) b rest = .ok (token, n) →
      Takes lexer text token (p + (n + 1))
  | finish : Takes lexer text (.eof (.ofOffset text text.length)) text.length

variable {lexer : Lexer}

theorem step_eq_ok {position : Position} {b : UInt8} {rest : List UInt8} {token : Token} {n : Nat}
    (h : lexer.step position b rest = .ok (token, n)) :
    token.position = position ∧ token.source = Text.decode ((b :: rest).take (n + 1)) ∧
      n + 1 ≤ (b :: rest).length := by
  rw [step] at h
  cases hmatch : lexer.recognizer.longestMatch (b :: rest) 0 with
  | error i =>
      rw [hmatch] at h
      contradiction
  | ok m =>
      obtain ⟨hstart, -, hstop⟩ := Automaton.Recognizer.longestMatch_bounds hmatch
      rw [hmatch] at h
      dsimp only at h
      split at h
      · contradiction
      · rename_i hempty
        rw [Automaton.Match.isEmpty, hstart, decide_eq_true_iff] at hempty
        obtain ⟨rfl, rfl⟩ := Prod.mk.inj (Except.ok.inj h)
        have hsucc : m.stop - 1 + 1 = m.stop := by omega
        rw [hsucc]
        rw [Nat.zero_add, List.drop_zero] at hstop
        exact ⟨rfl, rfl, hstop⟩

theorem offset_ofOffset {text : List UInt8} {p : Nat} (hp : p ≤ text.length) :
    (Position.ofOffset text p).offset = p := by
  rw [Position.ofOffset, List.length_take, Nat.min_eq_left hp]

/-! ### One token -/

theorem Takes.source_eq {text : List UInt8} {token : Token} {stop : Nat}
    (h : Takes lexer text token stop) :
    token.position.offset ≤ stop ∧ stop ≤ text.length ∧
      token.position = .ofOffset text token.position.offset ∧
      token.source = Text.decode (slice text token.position.offset stop) ∧
      (token.position.offset = stop → stop = text.length) := by
  cases h with
  | @word p n b rest token hrest hstep =>
      obtain ⟨hposition, hsource, hle⟩ := step_eq_ok hstep
      have hlt := lt_length_of_drop_eq_cons hrest
      have hoffset : token.position.offset = p := by
        rw [hposition, offset_ofOffset (Nat.le_of_lt hlt)]
      rw [← hrest, List.length_drop] at hle
      refine ⟨by omega, by omega, ?_, ?_, by omega⟩
      · rw [hoffset, hposition]
      · rw [hsource, hoffset, slice_add, hrest]
  | finish =>
      have hoffset : (Token.eof (.ofOffset text text.length)).position.offset = text.length :=
        offset_ofOffset (Nat.le_refl _)
      refine ⟨Nat.le_of_eq hoffset, Nat.le_refl _, ?_, ?_, fun _ => rfl⟩
      · rw [hoffset]
        rfl
      · rw [hoffset, slice, List.take_length, List.drop_length, Text.decode, Text.decodeChars]
        rfl

/-- A piece of a text that is as long as the text that is read from it: it begins between
characters, and ends between characters or before the last byte of four. -/
def KeepsLength (text : String) (start stop : Nat) : Prop :=
  String.Pos.Raw.IsValid text ⟨start⟩ ∧
    (String.Pos.Raw.IsValid text ⟨stop⟩ ∨ Text.BeforeFourth text.toList stop)

/-- A token never says that it ends before the bytes it took, and tells their end just if
reading them has kept their length. -/
theorem Takes.endOffset {text : String} {token : Token} {stop : Nat}
    (h : Takes lexer (bytes text) token stop) :
    stop ≤ token.endOffset ∧
      (token.endOffset = stop ↔ KeepsLength text token.position.offset stop) := by
  obtain ⟨hle, hstop, -, hsource, hend⟩ := h.source_eq
  have hsize : token.source.utf8ByteSize = (encoded (Text.decodeChars
      (((encoded text.toList).take stop).drop token.position.offset))).length := by
    rw [hsource, Text.decode, slice, Text.bytes_eq_encoded, Text.utf8ByteSize_ofList]
  rw [Token.endOffset, hsize, KeepsLength, ← Text.between_iff_isValid, ← Text.between_iff_isValid]
  rw [Text.bytes_eq_encoded] at hstop hend
  rcases Nat.lt_or_eq_of_le hle with hlt | heq
  · obtain ⟨hlonger, hkept⟩ := Text.length_decoded_piece text.toList hlt hstop
    rw [← hkept]
    omega
  · -- Only the mark at the end takes no bytes.
    have hlast : Text.Between text.toList stop := ⟨text.toList, [], by simp, (hend heq).symm⟩
    rw [heq, List.drop_eq_nil_of_le (List.length_take_le _ _), Text.decodeChars]
    exact ⟨Nat.le_refl _, iff_of_true rfl ⟨hlast, .inl hlast⟩⟩

/-! ### All tokens -/

variable {text : List UInt8}

/-- The tokens from a place on with the ends of their bytes: none begins before that place or
before the end of an earlier one. -/
structure InOrder (lexer : Lexer) (text : List UInt8) (p : Nat)
    (taken : List (Token × Nat)) : Prop where
  takes : ∀ x ∈ taken, Takes lexer text x.1 x.2
  from_le : ∀ x ∈ taken, p ≤ x.1.position.offset
  pairwise : taken.Pairwise fun x y => x.2 ≤ y.1.position.offset

theorem InOrder.weaken {p q : Nat} {taken : List (Token × Nat)} (h : InOrder lexer text q taken)
    (hpq : p ≤ q) : InOrder lexer text p taken where
  takes := h.takes
  from_le x hx := Nat.le_trans hpq (h.from_le x hx)
  pairwise := h.pairwise

theorem InOrder.cons {p stop : Nat} {token : Token} {taken : List (Token × Nat)}
    (h : InOrder lexer text stop taken) (htoken : Takes lexer text token stop)
    (hp : p ≤ token.position.offset) : InOrder lexer text p ((token, stop) :: taken) where
  takes := List.forall_mem_cons.2 ⟨htoken, h.takes⟩
  from_le := List.forall_mem_cons.2 ⟨hp, (h.weaken (Nat.le_trans hp htoken.source_eq.1)).from_le⟩
  pairwise := List.pairwise_cons.2 ⟨h.from_le, h.pairwise⟩

/-- What is left from an offset on is in order, and ends with the mark if it is asked for. -/
theorem exists_inOrder_drainFrom {r : Runner} {p : Nat} (hp : p ≤ text.length) {tokens : List Token}
    (h : (r.drainFrom (.ofOffset text p) (text.drop p)).1.mapM id = .ok tokens) :
    ∃ taken, taken.map Prod.fst = tokens ∧ InOrder r.lexer text p taken ∧
      (r.eof = true → tokens.getLast? = some (.eof (.ofOffset text text.length))) := by
  generalize hleft : text.length - p = left
  induction left using Nat.strong_induction_on generalizing p tokens with
  | _ left ih =>
      cases hrest : text.drop p with
      | nil =>
          obtain rfl : p = text.length := by
            have hle := List.drop_eq_nil_iff.1 hrest
            omega
          rw [hrest, Runner.drainFrom, mapM_id_finish] at h
          obtain rfl := Except.ok.inj h
          have hnone : InOrder r.lexer text text.length [] :=
            ⟨List.forall_mem_nil _, List.forall_mem_nil _, .nil⟩
          cases r.eof with
          | false => exact ⟨[], rfl, hnone, by simp⟩
          | true =>
              have hmark : text.length ≤ (Token.eof (.ofOffset text text.length)).position.offset :=
                Nat.le_of_eq (offset_ofOffset (Nat.le_refl _)).symm
              exact ⟨[(.eof (.ofOffset text text.length), text.length)], rfl,
                hnone.cons .finish hmark, fun _ => rfl⟩
      | cons b rest =>
          have hlt := lt_length_of_drop_eq_cons hrest
          rw [hrest] at h
          cases hstep : r.lexer.step (.ofOffset text p) b rest with
          | error e =>
              rw [Runner.drainFrom, hstep] at h
              contradiction
          | ok found =>
              obtain ⟨token, n⟩ := found
              have htakes : Takes r.lexer text token (p + (n + 1)) := .word hrest hstep
              rw [mapM_drainFrom_of_step hrest hstep] at h
              cases hitems : (r.drainFrom (.ofOffset text (p + (n + 1)))
                  (text.drop (p + (n + 1)))).1.mapM id with
              | error e =>
                  rw [hitems] at h
                  contradiction
              | ok later =>
                  rw [hitems] at h
                  obtain rfl := Except.ok.inj h
                  obtain ⟨taken, rfl, horder, hmark⟩ :=
                    ih _ (by omega) htakes.source_eq.2.1 hitems rfl
                  dsimp only
                  by_cases hignored : r.lexer.isIgnored token.name = true
                  · rw [if_pos hignored]
                    exact ⟨taken, rfl, horder.weaken (Nat.le_add_right _ _), hmark⟩
                  · rw [if_neg hignored]
                    refine ⟨(token, p + (n + 1)) :: taken, rfl, horder.cons htakes ?_,
                      fun heof => ?_⟩
                    · rw [(step_eq_ok hstep).1, offset_ofOffset hp]
                    · rw [List.getLast?_cons, hmark heof]
                      rfl

/-- Where the parser sees a place behind the last token: where that token says that it ends. -/
theorem offset_location (tokens : List Token) {pos : Nat} (hpos : tokens.length ≤ pos) :
    ((Subject.ofInput (.tokens tokens)).location pos).offset =
      (tokens.getLast?.map Token.endOffset).getD 0 := by
  have hnone : tokens.toArray[pos]? = none := by simpa using hpos
  rw [Subject.ofInput, Subject.location, hnone]
  dsimp only
  rw [List.back?_toArray]
  cases tokens.getLast? with
  | none => rfl
  | some last =>
      show (last.position.advance (bytes last.source)).offset = last.position.offset + _
      rw [Position.advance]
      split <;> rfl

theorem offset_location_le {tokens : List Token} {n : Nat}
    (h : ∀ token ∈ tokens, token.endOffset ≤ n)
    (pos : Nat) : ((Subject.ofInput (.tokens tokens)).location pos).offset ≤ n := by
  by_cases hpos : pos < tokens.length
  · have hsome : tokens.toArray[pos]? = some tokens[pos] := by simp [hpos]
    rw [Subject.ofInput, Subject.location, hsome]
    exact Nat.le_trans (Nat.le_add_right _ _) (h _ (List.getElem_mem hpos))
  · rw [offset_location tokens (Nat.le_of_not_lt hpos)]
    cases hlast : tokens.getLast? with
    | none => exact Nat.zero_le n
    | some last => exact h last (List.mem_of_getLast? hlast)

/-- The bytes that a lexer takes for its tokens do not overlap and lie inside the text. A token
says that it ends where they end, or behind that; it tells their end just if reading them has
kept their length. If that is so of all tokens, they do not overlap by their own account either,
and no place that the parser reports lies behind the text. The place behind the last token is
the end of the text if that has a mark. -/
theorem tokenize_endOffset {lexer : Lexer} {text : String} {eof : Bool} {tokens : List Token}
    (h : lexer.tokenize text eof = .ok tokens) :
    ∃ taken : List (Token × Nat), taken.map Prod.fst = tokens ∧
      (taken.Pairwise fun x y => x.2 ≤ y.1.position.offset) ∧
      (∀ x ∈ taken, Takes lexer (bytes text) x.1 x.2 ∧ x.1.position.offset ≤ x.2 ∧
        x.2 ≤ (bytes text).length ∧ x.2 ≤ x.1.endOffset ∧
        (x.1.endOffset = x.2 ↔ KeepsLength text x.1.position.offset x.2)) ∧
      (∀ pos, tokens.length ≤ pos → ((Subject.ofInput (.tokens tokens)).location pos).offset =
        (tokens.getLast?.map Token.endOffset).getD 0) ∧
      (eof = true → ∀ pos, tokens.length ≤ pos →
        ((Subject.ofInput (.tokens tokens)).location pos).offset = (bytes text).length) ∧
      ((∀ x ∈ taken, KeepsLength text x.1.position.offset x.2) →
        (∀ token ∈ tokens, token.endOffset ≤ (bytes text).length) ∧
        (tokens.Pairwise fun a b => a.endOffset ≤ b.position.offset) ∧
        ∀ pos, ((Subject.ofInput (.tokens tokens)).location pos).offset ≤ (bytes text).length) := by
  have hdrain : ((lexer.runner text eof).drainFrom (.ofOffset (bytes text) 0)
      ((bytes text).drop 0)).1.mapM id = .ok tokens := h
  obtain ⟨taken, rfl, horder, hmark⟩ := exists_inOrder_drainFrom (Nat.zero_le _) hdrain
  refine ⟨taken, rfl, horder.pairwise, fun x hx => ?_, fun pos => offset_location _, ?_, ?_⟩
  · have htakes := horder.takes x hx
    exact ⟨htakes, htakes.source_eq.1, htakes.source_eq.2.1, htakes.endOffset⟩
  · intro heof pos hpos
    rw [offset_location _ hpos, hmark heof]
    exact (Nat.add_zero _).trans (offset_ofOffset (Nat.le_refl _))
  · intro hkept
    have hend : ∀ x ∈ taken, x.1.endOffset = x.2 :=
      fun x hx => (horder.takes x hx).endOffset.2.2 (hkept x hx)
    have hle : ∀ token ∈ taken.map Prod.fst, token.endOffset ≤ (bytes text).length := by
      intro token htoken
      obtain ⟨x, hx, rfl⟩ := List.mem_map.1 htoken
      rw [hend x hx]
      exact (horder.takes x hx).source_eq.2.1
    refine ⟨hle, ?_, offset_location_le hle⟩
    rw [List.pairwise_map]
    exact horder.pairwise.imp_of_mem fun hx _ hxy => hend _ hx ▸ hxy

/-- Every byte beyond the plain ones is a token. -/
def bytewise : List (Regex × String) := [(.range 128 255, "BYTE")]

theorem mem_language_bytewise {w : List UInt8} :
    Matches bytewise w ↔ ∃ b : UInt8, 128 ≤ b ∧ b ≤ 255 ∧ w = [b] := by
  simp only [Matches, bytewise, List.mem_singleton, exists_eq_left]
  rfl

theorem takes_bytewise {text : List UInt8} {p : Nat} {b : UInt8} (hb : 128 ≤ b ∧ b ≤ 255)
    (hp : p + 1 ≤ text.length) (hslice : slice text p (p + 1) = [b]) :
    IsGreatest (tokenEnds bytewise text p) (p + 1) ∧
      Names bytewise (slice text p (p + 1)) "BYTE" := by
  have hword : Matches bytewise (slice text p (p + 1)) :=
    mem_language_bytewise.2 ⟨b, hb.1, hb.2, hslice⟩
  refine ⟨⟨⟨Nat.lt_succ_self p, hp, hword⟩, fun stop hstop => ?_⟩, ?_, fun rule hrule _ => ?_⟩
  · obtain ⟨hlt, hle, hmatch⟩ := hstop
    obtain ⟨b', -, -, heq⟩ := mem_language_bytewise.1 hmatch
    have hlength := congrArg List.length heq
    rw [slice, List.length_drop, List.length_take, List.length_singleton] at hlength
    omega
  · obtain ⟨rule, hrule, hw⟩ := hword
    exact ⟨rule, hrule, hw, by rw [List.mem_singleton.1 hrule]⟩
  · rw [List.mem_singleton.1 hrule]

def halves : List Token := [⟨"BYTE", "\ufffd", ⟨0, 1, 1⟩⟩, ⟨"BYTE", "\ufffd", ⟨1, 1, 2⟩⟩]

theorem tokenize_bytewise : (ofRules bytewise []).tokenize "é" false = .ok halves := by
  have hrules : ∀ rule ∈ bytewise, rule.1.Untagged := by simp [bytewise, Regex.Untagged]
  have hbytes : bytes "é" = [195, 169] := by decide +kernel
  have hfirst : IsGreatest (tokenEnds bytewise [195, 169] 0) 1 ∧ Names bytewise [195] "BYTE" :=
    takes_bytewise (b := 195) (by decide) (by decide) rfl
  have hsecond : IsGreatest (tokenEnds bytewise [195, 169] 1) 2 ∧ Names bytewise [169] "BYTE" :=
    takes_bytewise (b := 169) (by decide) (by decide) rfl
  have hsources : Text.decode (slice [195, 169] 0 1) = "\ufffd" ∧
      Text.decode (slice [195, 169] 1 2) = "\ufffd" := by decide +kernel
  have hend : Tokenizes bytewise [] [195, 169] false 2 (.ok []) := .finish
  have hall := Tokenizes.token hfirst.1 hfirst.2 (.token hsecond.1 hsecond.2 hend)
  rw [hsources.1, hsources.2] at hall
  have hrunner : ((ofRules bytewise []).runner "é" false).lexer = ofRules bytewise [] := rfl
  have htokenizes := tokenizes_drainFrom hrules hrunner (Nat.zero_le (bytes "é").length)
  rw [hbytes] at htokenizes
  exact htokenizes.unique hall

theorem tokenize_endOffset_bytewise :
    (ofRules bytewise []).tokenize "é" false = .ok halves ∧
      ∃ taken : List (Token × Nat), taken.map Prod.fst = halves ∧
        (taken.Pairwise fun x y => x.2 ≤ y.1.position.offset) ∧
        ∀ x ∈ taken, x.2 ≤ 2 ∧ x.2 ≤ x.1.endOffset := by
  obtain ⟨taken, htokens, hpairwise, hends, -⟩ := tokenize_endOffset tokenize_bytewise
  have hlength : (bytes "é").length = 2 := by decide +kernel
  refine ⟨tokenize_bytewise, taken, htokens, hpairwise, fun x hx => ?_⟩
  obtain ⟨-, -, hle, hend, -⟩ := hends x hx
  exact ⟨hlength ▸ hle, hend⟩

/-- The halves of a character as tokens: each says that it is three bytes long, so the first
ends behind the start of the second and both behind the text, and so does the place that the
parser reports. -/
theorem endOffset_halves :
    (ofRules bytewise []).tokenize "é" false = .ok halves ∧
      ¬ (∀ token ∈ halves, token.endOffset ≤ (bytes "é").length) ∧
      ¬ (halves.Pairwise fun a b => a.endOffset ≤ b.position.offset) ∧
      ¬ ((Subject.ofInput (.tokens halves)).location halves.length).offset ≤ (bytes "é").length :=
  ⟨tokenize_bytewise, by decide +kernel, by decide +kernel, by decide +kernel⟩

end Seedling.Lexer
