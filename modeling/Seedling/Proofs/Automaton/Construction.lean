import Seedling.Proofs.Automaton.Complement
import Seedling.Proofs.Automaton.Document
import Seedling.Proofs.Automaton.Minimize
import Seedling.Proofs.Automaton.Subset

/-!
Every automaton that can be made would pass the check of parts. Only parts from outside are checked;
the subset construction numbers the sets that it meets and minimization its blocks, and no number
that they write down is left without a state.
-/

namespace Seedling.Automaton

namespace Dfa

section Parts

variable (names : Array String) (rows : Array (SortedMap UInt8 Nat)) (final unmergeable : StateSet)

/-- There is a state, every state has a row, and all numbers are those of states. -/
structure Fits : Prop where
  size_pos : 0 < names.size
  rows_size : rows.size = names.size
  target_lt : ∀ row ∈ rows, ∀ t ∈ row.values, t < names.size
  final_lt : ∀ s ∈ final, s < names.size
  unmergeable_lt : ∀ s ∈ unmergeable, s < names.size

/-- What an error says about the parts that it is the answer to. -/
def Describes : AutomatonError → Prop
  | .lengthMismatch count rowCount => count = names.size ∧ rowCount = rows.size ∧ count ≠ rowCount
  | .empty => names.size = 0
  | .stateOutOfRange s count =>
      count = names.size ∧ s ∈ mentioned rows final unmergeable ∧ count ≤ s
  | .unreadable | .document _ => False

end Parts

variable {names : Array String} {rows : Array (SortedMap UInt8 Nat)} {final unmergeable : StateSet}
  {d : Dfa} {e : AutomatonError}

theorem Valid.fits (hd : d.Valid) : Fits d.names d.rows d.final d.unmergeable where
  size_pos := hd.size_pos
  rows_size := hd.rows_size
  target_lt := by
    intro row hrow t ht
    apply hd.lt_of_mem_mentioned
    simp only [mentioned, List.mem_append, List.mem_flatMap, Array.mem_toList_iff]
    exact .inl (.inl ⟨row, hrow, ht⟩)
  final_lt _ hs := hd.final_lt hs
  unmergeable_lt _ hs := hd.unmergeable_lt hs

theorem Fits.valid (h : Fits names rows final unmergeable) :
    Valid ⟨names, rows, final, unmergeable⟩ where
  rows_size := h.rows_size
  size_pos := h.size_pos
  next_lt := by
    intro s b t ht
    have hs : s < rows.size := lt_of_next? ht
    simp only [next?, row, Array.getElem?_eq_getElem hs, Option.getD_some,
      SortedMap.get?_eq_some_iff] at ht
    exact h.target_lt rows[s] (Array.getElem_mem hs) t (List.mem_map_of_mem ht)
  final_lt := h.final_lt _
  unmergeable_lt := h.unmergeable_lt _

theorem Fits.ofParts_eq (h : Fits names rows final unmergeable) :
    ofParts names rows final unmergeable = .ok ⟨names, rows, final, unmergeable⟩ :=
  h.valid.ofParts_eq

/-- What passes the check is kept as it is, and an error of it is true. -/
theorem ofParts_spec (names : Array String) (rows : Array (SortedMap UInt8 Nat))
    (final unmergeable : StateSet) :
    match ofParts names rows final unmergeable with
    | .ok d => d = ⟨names, rows, final, unmergeable⟩
    | .error e => Describes names rows final unmergeable e := by
  rw [ofParts]
  split_ifs with hrows hempty
  · exact ⟨rfl, rfl, hrows⟩
  · exact hempty
  · cases hfind : (mentioned rows final unmergeable).find? fun s => names.size ≤ s with
    | none => rfl
    | some s => exact ⟨rfl, List.mem_of_find?_eq_some hfind, by simpa using List.find?_some hfind⟩

/-- The check refuses parts that do not fit together, and says why. -/
theorem exists_error_of_not_fits (h : ¬ Fits names rows final unmergeable) :
    ∃ e, ofParts names rows final unmergeable = .error e ∧
      Describes names rows final unmergeable e := by
  have hspec := ofParts_spec names rows final unmergeable
  cases hread : ofParts names rows final unmergeable with
  | error e =>
      rw [hread] at hspec
      exact ⟨e, rfl, hspec⟩
  | ok d =>
      rw [hread] at hspec
      subst hspec
      exact absurd (valid_of_ofParts hread).fits h

theorem exists_parts_of_ofJson {text : String} (h : ofJson text = .ok d) :
    ∃ names rows final unmergeable, ofParts names rows final unmergeable = .ok d := by
  rw [ofJson] at h
  cases hfront : Json.readFront text with
  | none =>
      rw [hfront] at h
      contradiction
  | some front =>
      rw [hfront] at h
      cases hparts : readParts front.1 with
      | none => simp [hparts] at h
      | some parts =>
          obtain ⟨names, rows, final, unmergeable⟩ := parts
          refine ⟨names, rows, final, unmergeable, ?_⟩
          cases hcheck : ofParts names rows final unmergeable with
          | error e => simp [hparts, hcheck] at h
          | ok d' =>
              simp only [hparts, hcheck] at h
              split at h
              · exact h
              · contradiction

/-- The automata that are made by the operations of the library, in any order. -/
inductive Made : Dfa → Prop where
  | ofParts {names : Array String} {rows : Array (SortedMap UInt8 Nat)}
      {final unmergeable : StateSet}
      {d : Dfa} : Dfa.ofParts names rows final unmergeable = .ok d → Made d
  | ofJson {text : String} {d : Dfa} : Dfa.ofJson text = .ok d → Made d
  | determinize {nfa : Nfa} (precedence : Option (List String)) : nfa.WellFormed →
      (∀ s ∈ nfa.start, s < nfa.size) → Made (Automaton.determinize nfa precedence)
  | minimized {d : Dfa} : Made d → Made d.minimized
  | complete {d : Dfa} : Made d → Made d.complete
  | complement {d : Dfa} : Made d → Made d.complement

theorem Made.valid (h : Made d) : d.Valid := by
  induction h with
  | ofParts hparts => exact valid_of_ofParts hparts
  | ofJson htext =>
      obtain ⟨names, rows, final, unmergeable, hparts⟩ := exists_parts_of_ofJson htext
      exact valid_of_ofParts hparts
  | determinize precedence hwf hstart => exact determinize_valid precedence hwf hstart
  | minimized _ ih => exact minimized_valid ih
  | complete _ ih => exact complete_valid ih
  | complement _ ih => exact complement_valid ih

/-- Whatever is made has a state, a row for each, and no number without a state, so that its
parts pass the check and give it back. The check lets exactly such parts pass, and its errors
are true. -/
theorem made_passes_check :
    (∀ d, Made d → Fits d.names d.rows d.final d.unmergeable ∧
      ofParts d.names d.rows d.final d.unmergeable = .ok d) ∧
    ∀ names rows final unmergeable,
      (Fits names rows final unmergeable →
        ofParts names rows final unmergeable = .ok ⟨names, rows, final, unmergeable⟩) ∧
      (¬ Fits names rows final unmergeable → ∃ e, ofParts names rows final unmergeable = .error e ∧
        Describes names rows final unmergeable e) :=
  ⟨fun _ h => ⟨h.valid.fits, h.valid.ofParts_eq⟩,
    fun _ _ _ _ => ⟨Fits.ofParts_eq, exists_error_of_not_fits⟩⟩

/-- `a` or `ab`, each with a state that must keep its name. -/
def twoEnds : Nfa where
  names := #["start", "short", "middle", "long"]
  edges := #[.ofList [(97, .ofList [1, 2])], .empty, .ofList [(98, .singleton 3)], .empty]
  epsilons := #[.empty, .empty, .empty, .empty]
  start := .singleton 0
  final := .ofList [1, 3]
  unmergeable := .ofList [1, 3]

def otherEnds : Dfa := (determinize twoEnds none).minimized.complement.complete

/-- It is what its parts give; parts that mention a number one too high are refused. -/
theorem made_passes_check_otherEnds :
    Made otherEnds ∧ Fits otherEnds.names otherEnds.rows otherEnds.final otherEnds.unmergeable ∧
      ofParts otherEnds.names otherEnds.rows otherEnds.final otherEnds.unmergeable = .ok otherEnds ∧
      ¬ Fits #["only"] #[.ofList [(97, 1)]] .empty .empty ∧
      ∃ e, ofParts #["only"] #[.ofList [(97, 1)]] .empty .empty = .error e := by
  have hwf : twoEnds.WellFormed := Nfa.wellFormed_of_forall rfl rfl (by decide) (by decide)
  have hstart : ∀ s ∈ twoEnds.start, s < twoEnds.size := by
    intro s hs
    obtain rfl : s = 0 := SortedSet.mem_singleton.1 hs
    decide
  have hmade : Made otherEnds := (Made.determinize none hwf hstart).minimized.complement.complete
  have hstray : ¬ Fits #["only"] #[.ofList [(97, 1)]] .empty .empty := by
    intro h
    have hlt := h.target_lt (.ofList [(97, 1)]) (by simp) 1 (by decide)
    exact absurd hlt (by decide)
  obtain ⟨hpasses, hcheck⟩ := made_passes_check
  obtain ⟨e, he, -⟩ := (hcheck _ _ _ _).2 hstray
  obtain ⟨hfits, hparts⟩ := hpasses otherEnds hmade
  exact ⟨hmade, hfits, hparts, hstray, e, he⟩

end Dfa

end Seedling.Automaton
