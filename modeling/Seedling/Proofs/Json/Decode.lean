import Seedling.Proofs.Json.Reader

/-!
Values taken out of documents that were made of them: each way to write a value has a way to read it
that gives the value back.
-/

namespace Seedling.Json

/-! ### Strings and numbers -/

theorem hexValue_digitChar : ∀ n < 16, hexValue n.digitChar = n := by decide

theorem hexUnit_hexByte {b : UInt8} :
    hexUnit '0' '0' (Nat.digitChar (b.toNat / 16)) (Nat.digitChar (b.toNat % 16)) = b.toNat := by
  have hb := b.toNat_lt
  rw [hexUnit, hexValue_digitChar _ (Nat.mod_lt _ (by decide)), hexValue_digitChar _ (by omega),
    show hexValue '0' = 0 by decide]
  omega

theorem joinSurrogates_escapeChar (c : Char) (cs : List Char) :
    joinSurrogates (codePoints (escapeChar c ++ cs)) =
      (joinSurrogates (codePoints cs)).map (c :: ·) := by
  unfold escapeChar
  split_ifs with hquote hslash hn hr ht hb hf hcontrol
  case pos => simp [codePoints, joinSurrogates, shortEscape, hquote]
  case pos => simp [codePoints, joinSurrogates, shortEscape, hslash]
  case pos => simp [codePoints, joinSurrogates, shortEscape, hn]
  case pos => simp [codePoints, joinSurrogates, shortEscape, hr]
  case pos => simp [codePoints, joinSurrogates, shortEscape, ht]
  · obtain rfl : Char.ofNat 8 = c := by rw [← hb, Char.ofNat_toNat]
    simp [codePoints, joinSurrogates, shortEscape]
  · obtain rfl : Char.ofNat 12 = c := by rw [← hf, Char.ofNat_toNat]
    simp [codePoints, joinSurrogates, shortEscape]
  · have hunit := hexUnit_hexByte (b := c.toNat.toUInt8)
    have hbyte : c.toNat.toUInt8.toNat = c.toNat := Nat.mod_eq_of_lt (by omega)
    rw [hbyte] at hunit
    -- A control character is no half of a pair.
    have hhigh : isHighSurrogate c.toNat = false := by simp [isHighSurrogate]; omega
    have hlow : isLowSurrogate c.toNat = false := by simp [isLowSurrogate]; omega
    simp only [toList_hexByte, hbyte, List.cons_append, List.nil_append, codePoints, hunit]
    rw [joinSurrogates.eq_def]
    simp [hhigh, hlow]
  · have hplain : codePoints (c :: cs) = (false, c.toNat) :: codePoints cs := by
      rw [codePoints.eq_def]
      split <;> simp_all
    simp [hplain, joinSurrogates]

theorem textOf_escape (s : String) : textOf (escape s.toList) = some s := by
  have hjoin (cs : List Char) : joinSurrogates (codePoints (escape cs)) = some cs := by
    induction cs with
    | nil => rfl
    | cons c cs ih => rw [escape_cons, joinSurrogates_escapeChar, ih, Option.map_some]
  rw [textOf, hjoin, Option.map_some, String.ofList_toList]

theorem decimal_toDigits (n : Nat) : decimal (Nat.toDigits 10 n) = some n := by
  have hdigits : (Nat.toDigits 10 n).all Char.isDigit = true :=
    List.all_eq_true.2 isDigit_of_mem_toDigits
  have hvalue : (Nat.toDigits 10 n).foldl (fun n c => n * 10 + (c.toNat - '0'.toNat)) 0 = n := by
    conv => rhs; rw [← Nat.ofDigitChars_ten_toDigits (n := n), Nat.ofDigitChars_eq_foldl]
    simp only [Nat.mul_comm]
  rw [decimal, if_neg ?_, hvalue]
  simp only [Nat.toDigits_ne_nil, hdigits]
  simpa using toDigits_of_head? n

theorem escapeChar_of_isDigit {c : Char} (hc : c.isDigit = true) : escapeChar c = [c] := by
  have hquote : c ≠ '"' := ne_of_isDigit hc (by decide)
  have hslash : c ≠ '\\' := ne_of_isDigit hc (by decide)
  have hcontrol : 48 ≤ c.toNat ∧ c.toNat ≤ 57 := by
    simpa [Char.isDigit, UInt32.le_iff_toNat_le] using hc
  have hn : c ≠ '\n' := ne_of_isDigit hc (by decide)
  have hr : c ≠ '\r' := ne_of_isDigit hc (by decide)
  have ht : c ≠ '\t' := ne_of_isDigit hc (by decide)
  rw [escapeChar, if_neg hquote, if_neg hslash, if_neg hn, if_neg hr, if_neg ht, if_neg (by omega),
    if_neg (by omega), if_neg (by omega)]

theorem escape_toDigits (n : Nat) : escape (Nat.toDigits 10 n) = Nat.toDigits 10 n := by
  have hall (cs : List Char) (h : ∀ c ∈ cs, c.isDigit = true) : escape cs = cs := by
    induction cs with
    | nil => rfl
    | cons c cs ih =>
        obtain ⟨hc, hcs⟩ := List.forall_mem_cons.1 h
        rw [escape_cons, escapeChar_of_isDigit hc, ih hcs, List.singleton_append]
  exact hall _ isDigit_of_mem_toDigits

theorem asNat_ofNat {n : Nat} (hn : n < UInt64.size) : asNat (ofNat n) = some n := by
  simp [ofNat, asNat, decimal_toDigits, hn]

@[simp] theorem asString_ofString (s : String) : asString (ofString s) = some s := textOf_escape s

/-! ### Lists, maps and options -/

theorem mapM_map_of_forall {α β γ : Type} {f : β → Option γ} {g : α → β} {k : α → γ} {l : List α}
    (h : ∀ a ∈ l, f (g a) = some (k a)) : (l.map g).mapM f = some (l.map k) := by
  induction l with
  | nil => rfl
  | cons a l ih =>
      have hrest := ih fun a ha => h a (List.mem_cons_of_mem _ ha)
      simp [h a List.mem_cons_self, hrest]

variable {α : Type} {f : Json → Option α} {g : α → Json}

theorem asList_array {l : List α} (h : ∀ a ∈ l, f (g a) = some a) :
    asList f (.array (l.map g)) = some l := by
  rw [asList, mapM_map_of_forall (k := id) h, List.map_id]

theorem asOption_ofOption {o : Option α} (h : ∀ a ∈ o, f (g a) = some a)
    (hnull : ∀ a, g a ≠ .null) : asOption f (ofOption g o) = some o := by
  cases o with
  | none => rfl
  | some a => 
      rw [ofOption, asOption, h a rfl]
      · rfl
      · exact hnull a

theorem asByteMap_object {l : List (UInt8 × α)} (h : ∀ p ∈ l, f (g p.2) = some p.2) :
    asByteMap f (.object (l.map fun p => (Nat.toDigits 10 p.1.toNat, g p.2))) = some l := by
  rw [asByteMap, mapM_map_of_forall (k := id) fun p hp => ?_, List.map_id]
  have hbyte : p.1.toNat < 256 := p.1.toNat_lt
  simp [decimal_toDigits, h p hp, Option.filter, hbyte]

/-! ### Records and cases -/

theorem filter_eq_singleton {fs : List (String × Json)} (hnodup : (fs.map Prod.fst).Nodup)
    {p : String × Json} (hp : p ∈ fs) : (fs.filter fun q => q.1 = p.1) = [p] := by
  induction fs with
  | nil => contradiction
  | cons q fs ih =>
      obtain ⟨hq, hrest⟩ := List.nodup_cons.1 hnodup
      cases List.mem_cons.1 hp with
      | inl heq =>
          subst heq
          have hnone : (fs.filter fun q => q.1 = p.1) = [] := by
            refine List.filter_eq_nil_iff.2 fun q hmem => ?_
            simp only [decide_eq_true_eq]
            exact fun heq => hq (heq ▸ List.mem_map_of_mem hmem)
          simp [hnone]
      | inr hmem =>
          have hne : q.1 ≠ p.1 := fun heq => hq (heq ▸ List.mem_map_of_mem hmem)
          rw [List.filter_cons_of_neg (by simpa using hne), ih hrest hmem]

theorem fields_record {names : List String} {fs : List (String × Json)}
    (hnames : fs.map Prod.fst = names)
    (hnodup : names.Nodup) : fields names (record fs) = some (fs.map fun p => some p.2) := by
  subst hnames
  have hnamed : (fs.map fun p => (escape p.1.toList, p.2)).mapM
      (fun p => (textOf p.1).map fun key => (key, p.2)) = some fs := by
    rw [mapM_map_of_forall (k := id) fun p _ => ?_, List.map_id]
    simp [textOf_escape]
  rw [record, fields, hnamed]
  refine mapM_map_of_forall fun p hp => ?_
  simp only [filter_eq_singleton hnodup hp]

theorem allFields_record {names : List String} {fs : List (String × Json)}
    (hnames : fs.map Prod.fst = names)
    (hnodup : names.Nodup) : allFields names (record fs) = some (fs.map Prod.snd) := by
  rw [allFields, fields_record hnames hnodup]
  exact mapM_map_of_forall fun p _ => rfl

@[simp] theorem asCase_record (name : String) (j : Json) :
    asCase (record [(name, j)]) = some (name, j) := by
  simp [record, asCase, textOf_escape]

/-! ### What is written -/

@[simp] theorem written_ofNat (n : Nat) : Written (ofNat n) := .number n

@[simp] theorem written_ofString (s : String) : Written (ofString s) := .string s.toList

@[simp] theorem written_bool (b : Bool) : Written (.bool b) := .bool b

theorem written_ofOption {o : Option α} (h : ∀ a ∈ o, Written (g a)) : Written (ofOption g o) := by
  cases o with
  | none => exact .null
  | some a => exact h a rfl

@[simp] theorem written_array {items : List Json} :
    Written (.array items) ↔ ∀ item ∈ items, Written item :=
  ⟨fun h => by cases h with | array h => exact h, .array⟩

@[simp] theorem written_ofNats (l : List Nat) : Written (ofNats l) := by
  simp [ofNats]

@[simp] theorem written_ofStrings (l : List String) : Written (ofStrings l) := by
  simp [ofStrings]

theorem written_record {fs : List (String × Json)} (h : ∀ p ∈ fs, Written p.2) :
    Written (record fs) := by
  refine .object ?_ ?_
  · intro m hm
    obtain ⟨p, -, rfl⟩ := List.mem_map.1 hm
    exact ⟨p.1.toList, rfl⟩
  · intro m hm
    obtain ⟨p, hp, rfl⟩ := List.mem_map.1 hm
    exact h p hp

end Seedling.Json
