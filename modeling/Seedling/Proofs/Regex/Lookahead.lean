import Seedling.Proofs.Regex.Printing

/-!
How far the reader looks ahead. A number, an escape and a class go on as long as they can, so
that what follows a piece of a pattern may change how it is read. A brace never does: it
continues nothing, and where a piece has been read to its end it is read in the same way with a
brace after it.
-/

namespace Seedling.Regex

/-! ### Pieces with a brace after them -/

theorem map_eq_ok {ε α β : Type} {x y : Except ε α} (h : ∀ a, x = .ok a → y = .ok a)
    {f : α → β} {b : β} (hx : x.map f = .ok b) : y.map f = .ok b := by
  rcases x with _ | a
  · contradiction
  · rwa [h a rfl]

/-- What can come after a piece of a pattern without being taken for a part of it: a brace, or
the end. -/
def Inert (after : List UInt8) : Prop := ∀ b ∈ after.head?, b = '\x7b'.toUInt8

namespace Inert

variable {after : List UInt8}

theorem eq_nil_or (h : Inert after) : after = [] ∨ ∃ tail, after = '\x7b'.toUInt8 :: tail := by
  rcases after with _ | ⟨b, tail⟩
  · exact .inl rfl
  · exact .inr ⟨tail, by rw [h b rfl]⟩

theorem takeWhile_append (h : Inert after) {p : UInt8 → Bool} (hp : p '\x7b'.toUInt8 = false)
    (cs : List UInt8) : (cs ++ after).takeWhile p = cs.takeWhile p := by
  induction cs with
  | nil =>
      rcases h.eq_nil_or with rfl | ⟨tail, rfl⟩
      · rfl
      · simp [hp]
  | cons c cs ih => rw [List.cons_append, List.takeWhile_cons, List.takeWhile_cons, ih]

theorem count_append (h : Inert after) (cs : List UInt8) : count (cs ++ after) = count cs := by
  have hdigits := h.takeWhile_append (p := isDigit) rfl
  have hdrop : ∀ cs : List UInt8, (cs ++ after).drop (cs.takeWhile isDigit).length =
      cs.drop (cs.takeWhile isDigit).length ++ after :=
    fun cs => List.drop_append_of_le_length (List.takeWhile_prefix isDigit).length_le
  rw [count, count]
  dsimp only
  rw [hdigits, hdrop]
  rcases h.eq_nil_or with rfl | ⟨tail, rfl⟩
  · simp only [List.append_nil]
  rcases hmin : decimal (cs.takeWhile isDigit) with _ | min
  · rfl
  rcases hrest : cs.drop (cs.takeWhile isDigit).length with _ | ⟨b, rest⟩
  · rfl
  · dsimp only [List.cons_append]
    rw [hdigits, hdrop]
    rcases hmore : rest.drop (rest.takeWhile isDigit).length with _ | ⟨b', rest'⟩
    · rfl
    · rfl

theorem take (h : Inert after) (n : Nat) : Inert (after.take n) := by
  intro b hb
  rw [List.head?_take] at hb
  split at hb
  · contradiction
  · exact h b hb

theorem octalTail_append (h : Inert after) (cs : List UInt8) :
    octalTail (cs ++ after) = octalTail cs := by
  rw [octalTail, List.take_append, (h.take _).takeWhile_append rfl, octalTail]

theorem escape_append (h : Inert after) {inClass : Bool} {cs : List UInt8} {r : Escaped × Nat}
    (hread : escape inClass cs = .ok r) : escape inClass (cs ++ after) = .ok r := by
  rcases cs with _ | ⟨c, rest⟩
  · contradiction
  rw [List.cons_append]
  cases hletter : isLetter c with
  | false =>
      rw [escape_of_not_isLetter hletter] at hread ⊢
      rwa [h.octalTail_append]
  | true =>
      by_cases hc : ∃ entry ∈ letterEscapes, c = entry.1.toUInt8
      · obtain ⟨entry, hentry, rfl⟩ := hc
        fin_cases hentry <;> exact hread
      by_cases hb : inClass = true ∧ c = 'b'.toUInt8
      · obtain ⟨rfl, rfl⟩ := hb
        exact hread
      by_cases hhex : c = 'x'.toUInt8
      · subst hhex
        rw [escape_hex] at hread ⊢
        rcases rest with _ | ⟨a, _ | ⟨b, rest⟩⟩
        · contradiction
        · contradiction
        · exact hread
      by_cases hcontrol : c = 'c'.toUInt8
      · subst hcontrol
        rw [escape_control] at hread ⊢
        rcases rest with _ | ⟨x, rest⟩
        · contradiction
        · exact hread
      · rw [escape_unknown hletter (fun entry hentry heq => hc ⟨entry, hentry, heq⟩) hb hhex
          hcontrol] at hread
        contradiction

theorem single_append (h : Inert after) {pos : Nat} {c : UInt8} {rest : List UInt8}
    {r : Escaped × Nat}
    (hread : single pos c rest = .ok r) : single pos c (rest ++ after) = .ok r := by
  rw [single] at hread ⊢
  split at hread
  · rename_i hc
    rcases hescape : escape true rest with _ | r' <;> rw [hescape] at hread
    · contradiction
    · rw [if_pos hc, h.escape_append hescape]
      exact hread
  · rename_i hc
    rw [if_neg hc]
    exact hread

/-- A dash at the end of a pattern is no range, but it would be one with a brace after it. -/
theorem startsRange_append (h : Inert after) {cs : List UInt8} (hdash : cs ≠ ['-'.toUInt8]) :
    StartsRange (cs ++ after) ↔ StartsRange cs := by
  match cs with
  | [] =>
      rcases h.eq_nil_or with rfl | ⟨tail, rfl⟩
      · rfl
      · simp +decide [StartsRange]
  | [c] =>
      have hc : c ≠ '-'.toUInt8 := fun hc => hdash (congrArg ([·]) hc)
      simp [StartsRange, hc]
  | c :: next :: tail => simp [StartsRange]

theorem classItem_append (h : Inert after) {pos n : Nat} {c : UInt8} {rest : List UInt8}
    {set : UInt8 → Bool} (hread : classItem pos c rest = .ok (set, n))
    (hdash : rest.drop n ≠ ['-'.toUInt8]) : classItem pos c (rest ++ after) = .ok (set, n) := by
  have hfirst := single_reads pos c rest
  rw [classItem_eq] at hread ⊢
  rcases hsingle : single pos c rest with _ | ⟨lo | s, m⟩ <;> rw [hsingle] at hread hfirst
  · contradiction
  · have hdrop : (rest ++ after).drop m = rest.drop m ++ after :=
      List.drop_append_of_le_length hfirst.1
    rw [h.single_append hsingle]
    rw [Except.bind] at hread ⊢
    by_cases hopens : StartsRange (rest.drop m)
    · have ⟨next, tail, hmid, hnext⟩ := hopens
      have hmid' : (rest ++ after).drop m = '-'.toUInt8 :: next :: (tail ++ after) := by
        rw [hdrop, hmid]; rfl
      rw [itemFrom_range hmid hnext] at hread
      rw [itemFrom_range hmid' hnext]
      rcases hlast : single (pos + m + 2) next tail with _ | r <;> rw [hlast] at hread
      · contradiction
      · rw [h.single_append hlast]
        exact hread
    · rw [itemFrom, if_neg (mt opensRange_iff.1 hopens)] at hread
      cases hread
      have hclosed := mt (h.startsRange_append hdash).1 hopens
      rw [← hdrop] at hclosed
      rw [itemFrom, if_neg (mt opensRange_iff.1 hclosed)]
  · rw [h.single_append hsingle]
    exact hread

theorem classItems_dash (opened : Nat) (set : UInt8 → Bool) (pos : Nat) :
    classItems opened false set pos ['-'.toUInt8] = .error (opened, .unclosedClass) := by
  have hitem : classItem pos '-'.toUInt8 [] = .ok (fun b => b == '-'.toUInt8, 0) := rfl
  rw [classItems, if_neg (by decide), hitem]
  dsimp only
  rw [List.drop_nil, classItems]

theorem classItems_append (h : Inert after) {opened pos : Nat} {first : Bool} {set : UInt8 → Bool}
    {cs : List UInt8} {r : (UInt8 → Bool) × Nat}
    (hread : classItems opened first set pos cs = .ok r) :
    classItems opened first set pos (cs ++ after) = .ok r := by
  fun_induction classItems opened first set pos cs with
  | case1 => contradiction
  | case2 first set pos c tail hclose =>
      rw [List.cons_append, classItems, if_pos hclose]
      exact hread
  | case3 => contradiction
  | case4 first set pos c tail hopen item n hitem ih =>
      have hreads := classItem_reads pos c tail
      rw [hitem] at hreads
      have hn : n ≤ tail.length := by have := hreads.2.1; omega
      have hdash : tail.drop n ≠ ['-'.toUInt8] := by
        intro hdash
        rw [hdash, classItems_dash] at hread
        contradiction
      rw [List.cons_append, classItems, if_neg hopen, h.classItem_append hitem hdash]
      dsimp only
      rw [List.drop_append_of_le_length hn]
      exact ih hread

theorem characterClass_append (h : Inert after) {opened : Nat} {cs : List UInt8} {r : Regex × Nat}
    (hread : characterClass opened cs = .ok r) : characterClass opened (cs ++ after) = .ok r := by
  rcases cs with _ | ⟨c, rest⟩
  · contradiction
  rw [characterClass_cons] at hread
  rw [List.cons_append, characterClass_cons]
  split at hread
  · rename_i hc
    rw [if_pos hc]
    exact map_eq_ok (fun _ => h.classItems_append) hread
  · rename_i hc
    rw [if_neg hc, ← List.cons_append]
    exact map_eq_ok (fun _ => h.classItems_append) hread

theorem atom_append (h : Inert after) {pos : Nat} {c : UInt8} {rest : List UInt8} {r : Regex × Nat}
    (hread : atom pos c rest = .ok r) : atom pos c (rest ++ after) = .ok r := by
  rw [atom] at hread ⊢
  split_ifs at hread ⊢ with hbracket hdot hbackslash
  · rcases hclass : characterClass pos rest with _ | _ <;> rw [hclass] at hread
    · contradiction
    · rw [h.characterClass_append hclass]
      exact hread
  · exact hread
  · rcases hescape : escape false rest with _ | _ <;> rw [hescape] at hread
    · contradiction
    · rw [h.escape_append hescape]
      exact hread
  · exact hread

theorem quantified_append (h : Inert after) (pos : Nat) (r : Regex) (c : UInt8)
    (rest : List UInt8) : quantified pos r c (rest ++ after) = quantified pos r c rest := by
  rw [quantified, quantified, h.count_append]

/-- A piece is read as it would be without what comes after it. -/
theorem item_append (h : Inert after) {pos : Nat} {level : Level} {c : UInt8} {rest : List UInt8}
    {r : Level × Nat} (hread : item pos level c rest = .ok r) :
    item pos level c (rest ++ after) = .ok r := by
  rcases hitems : level.items with _ | ⟨last, items⟩
  · rw [item_nil hitems] at hread ⊢
    exact map_eq_ok (fun _ => h.atom_append) hread
  · rw [item_cons hitems] at hread ⊢
    rw [h.quantified_append]
    rcases hquantified : quantified pos last c rest with _ | (_ | _) <;> rw [hquantified] at hread
    · contradiction
    · exact map_eq_ok (fun _ => h.atom_append) hread
    · exact hread

end Inert

/-! ### Reading from place to place -/

/-- Where the reader is in a pattern: the offset, what it has read, and the bytes that are left. -/
structure Place where
  pos : Nat
  level : Level
  rest : List UInt8

/-- Reading goes on from one place to another, with a brace after the bytes as much as without. -/
structure Leads (source target : Place) : Prop where
  pos_eq : target.pos + target.rest.length = source.pos + source.rest.length
  readFrom_eq : ∀ outer after, Inert after →
    readFrom source.pos source.level outer (source.rest ++ after) =
      readFrom target.pos target.level outer (target.rest ++ after)

namespace Leads

variable {pos pos' n : Nat} {level level' : Level} {c : UInt8} {cs rest : List UInt8}

theorem refl (place : Place) : Leads place place := ⟨rfl, fun _ _ _ => rfl⟩

theorem trans {source middle target : Place} (h : Leads source middle) (h' : Leads middle target) :
    Leads source target :=
  ⟨h'.pos_eq.trans h.pos_eq,
    fun outer after hafter => (h.readFrom_eq outer after hafter).trans
      (h'.readFrom_eq outer after hafter)⟩

theorem bar : Leads ⟨pos, level, '|'.toUInt8 :: rest⟩ ⟨pos + 1, level.branch, rest⟩ where
  pos_eq := by
    simp only [List.length_cons]
    omega
  readFrom_eq outer after _ := readFrom_bar pos level outer (rest ++ after)

theorem group (h : Leads ⟨pos + 1, .empty, cs⟩ ⟨pos', level', ')'.toUInt8 :: rest⟩) :
    Leads ⟨pos, level, '('.toUInt8 :: cs⟩ ⟨pos' + 1, level.push level'.close, rest⟩ where
  pos_eq := by
    have := h.pos_eq
    simp only [List.length_cons] at this ⊢
    omega
  readFrom_eq outer after hafter := by
    show readFrom pos level outer ('('.toUInt8 :: (cs ++ after)) = _
    rw [readFrom_open, h.readFrom_eq _ after hafter]
    exact readFrom_close pos' level' outer (rest ++ after) pos level

theorem item (hc : c ∉ separators) (h : item pos level c cs = .ok (level', n)) :
    Leads ⟨pos, level, c :: cs⟩ ⟨pos + 1 + n, level', cs.drop n⟩ := by
  have hreads := item_reads pos level cs hc
  rw [h] at hreads
  have hn : n ≤ cs.length := by
    have := hreads.2.1
    omega
  constructor
  · simp only [List.length_drop, List.length_cons]
    omega
  · intro outer after hafter
    show readFrom pos level outer (c :: (cs ++ after)) =
      readFrom (pos + 1 + n) level' outer (cs.drop n ++ after)
    rw [readFrom_item outer hc (hafter.item_append h), List.drop_append_of_le_length hn]

theorem atom (hc : c ∉ separators) (h : Spells .lenient .atom (c :: cs) rest)
    (hopens : level.hasItem = true → ¬ OpensCount .lenient (c :: cs)) (pos : Nat) :
    ∃ pos' r, Leads ⟨pos, level, c :: cs⟩ ⟨pos', level.push r, rest⟩ := by
  have hreads := atom_reads pos cs hc
  rcases hatom : Regex.atom pos c cs with _ | ⟨r, n⟩ <;> rw [hatom] at hreads
  · exact absurd h (hreads.2 rest)
  obtain rfl := (hreads.2.2 rest).1 h
  refine ⟨pos + 1 + n, r, .item hc ?_⟩
  rcases hitems : level.items with _ | ⟨last, items⟩
  · rw [item_nil hitems, hatom]
    rfl
  have hclosed : ¬ OpensCount .lenient (c :: cs) := hopens (by rw [Level.hasItem, hitems]; rfl)
  have hquantified := quantified_reads pos last c cs
  rw [item_cons hitems]
  rcases hread : quantified pos last c cs with _ | (_ | _) <;> rw [hread] at hquantified
  · exact absurd hquantified.2.1 hclosed
  · rw [hatom]
    rfl
  · exact absurd h (not_atom (List.mem_append_right _ (hquantified.2.1.resolve_left hclosed)))

theorem quantifier (h : Quantifier .lenient cs rest) (pos : Nat) (level : Level) (r : Regex) :
    ∃ pos' r', Leads ⟨pos, level.push r, cs⟩ ⟨pos', level.push r', rest⟩ := by
  obtain ⟨c, cs, rfl⟩ : ∃ c tail, cs = c :: tail := by
    cases h <;> exact ⟨_, _, rfl⟩
  have hsigns : signs.all (· ∉ separators) = true := by decide
  have hc : c ∉ separators := by
    rcases quantifier_iff.1 h with ⟨hsign, -⟩ | ⟨rfl, -⟩
    · exact of_decide_eq_true (List.all_eq_true.1 hsigns c hsign)
    · decide
  have hquantified := quantified_reads pos r c cs
  rcases hread : quantified pos r c cs with _ | (_ | ⟨r', n⟩) <;> rw [hread] at hquantified
  · exact absurd h (hquantified.2.2 rest)
  · exact absurd h (hquantified.2 rest)
  · obtain rfl := (hquantified.2.2 rest).1 h
    refine ⟨pos + 1 + n, r', .item hc ?_⟩
    rw [item_cons (show (level.push r).items = r :: level.items from rfl), hread]
    rfl

theorem quantifiers (h : Quantifiers .lenient cs rest) (pos : Nat) (level : Level) (r : Regex) :
    ∃ pos' r', Leads ⟨pos, level.push r, cs⟩ ⟨pos', level.push r', rest⟩ := by
  induction h generalizing pos r with
  | nil => exact ⟨pos, r, .refl _⟩
  | cons hquantifier _ ih =>
      obtain ⟨pos', r', hfirst⟩ := quantifier hquantifier pos level r
      obtain ⟨pos'', r'', hmore⟩ := ih pos' r'
      exact ⟨pos'', r'', hfirst.trans hmore⟩

end Leads

theorem Quantifiers.not_opensCount {d : Dialect} {cs rest : List UInt8}
    (h : Quantifiers d cs rest) : ¬ OpensCount d rest := by
  induction h with
  | nil hopens => exact hopens
  | cons _ _ ih => exact ih

/-- From the start of a phrase the reader gets to its end, and an atom makes one item. -/
def Passes (symbol : Symbol) (cs rest : List UInt8) : Prop :=
  ∀ pos (level : Level), (level.hasItem = true → ¬ OpensCount .lenient cs) →
    ∃ pos' level', Leads ⟨pos, level, cs⟩ ⟨pos', level', rest⟩ ∧
      (symbol = .atom → ∃ r, level' = level.push r)

theorem passes_of_atom {c : UInt8} {cs rest : List UInt8} (hc : c ∉ separators)
    (h : Spells .lenient .atom (c :: cs) rest) : Passes .atom (c :: cs) rest := by
  intro pos level hopens
  obtain ⟨pos', r, hleads⟩ := Leads.atom hc h hopens pos
  exact ⟨pos', _, hleads, fun _ => ⟨r, rfl⟩⟩

theorem Spells.passes {symbol : Symbol} {cs rest : List UInt8}
    (h : Spells .lenient symbol cs rest) : Passes symbol cs rest := by
  intro pos level hopens
  -- a count could only open after an item, and the quantifiers of an item end where none does
  induction h generalizing pos level with
  | last _ ih =>
      obtain ⟨pos', level', hleads, -⟩ := ih pos level hopens
      exact ⟨pos', level', hleads, nofun⟩
  | more _ _ ih ih' =>
      obtain ⟨pos', level', hfirst, -⟩ := ih pos level hopens
      obtain ⟨pos'', level'', hmore, -⟩ := ih' (pos' + 1) level'.branch nofun
      exact ⟨pos'', level'', (hfirst.trans .bar).trans hmore, nofun⟩
  | nil => exact ⟨pos, level, .refl _, nofun⟩
  | cons _ hquantifiers _ ih ih' =>
      obtain ⟨pos₁, _, hatom, hpush⟩ := ih pos level hopens
      obtain ⟨r, rfl⟩ := hpush rfl
      obtain ⟨pos₂, r', hmore⟩ := Leads.quantifiers hquantifiers pos₁ level r
      obtain ⟨pos₃, level', hrest, -⟩ :=
        ih' pos₂ (level.push r') fun _ => hquantifiers.not_opensCount
      exact ⟨pos₃, level', (hatom.trans hmore).trans hrest, nofun⟩
  | group _ ih =>
      obtain ⟨pos', level', hleads, -⟩ := ih (pos + 1) .empty nofun
      exact ⟨pos' + 1, _, hleads.group, fun _ => ⟨level'.close, rfl⟩⟩
  | bracket h => exact passes_of_atom (by decide) (.bracket h) pos level hopens
  | any => exact passes_of_atom (by decide) .any pos level hopens
  | escape h => exact passes_of_atom (by decide) (.escape h) pos level hopens
  | byte hc =>
      have hseparators := fun h => hc (mem_reserved.2 (.inl h))
      exact passes_of_atom hseparators (.byte hc) pos level hopens

@[simp] theorem Level.close_push (r : Regex) : (Level.empty.push r).close = r := by
  cases r <;> rfl

/-- An atom is read on its own as what it is before a brace. -/
theorem exists_readFrom_atom {cs : List UInt8} (h : Spells .lenient .atom cs []) :
    ∃ r, readFrom 0 .empty [] cs = .ok r ∧ ∀ tail,
      readFrom 0 .empty [] (cs ++ '\x7b'.toUInt8 :: tail) =
        readFrom cs.length (Level.empty.push r) [] ('\x7b'.toUInt8 :: tail) := by
  obtain ⟨pos, level, hleads, hpush⟩ := h.passes 0 .empty nofun
  obtain ⟨r, rfl⟩ := hpush rfl
  obtain rfl : pos = cs.length := by simpa using hleads.pos_eq
  refine ⟨r, ?_, fun tail => ?_⟩
  · have hend := hleads.readFrom_eq [] [] nofun
    simp only [List.append_nil] at hend
    rw [hend, readFrom, Level.close_push]
  · refine hleads.readFrom_eq [] _ ?_
    rintro b ⟨⟩
    rfl

end Seedling.Regex
