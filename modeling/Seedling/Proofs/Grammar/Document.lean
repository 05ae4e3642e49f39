import Seedling.Grammar.Document
import Seedling.Proofs.Grammar.WellFormed
import Seedling.Proofs.Json.Decode

/-!
Grammars are read back from what is written of them: the tables as they were, and from them,
since they were accepted once, the same grammar.
-/

namespace Seedling

open Json (Written)

namespace Atom

/-- The numbers that an atom refers to or counts to. -/
def numbers : Atom → List Nat
  | .rule r => [r]
  | .repetition atom min max => atom :: min :: max.toList
  | a => a.children

theorem written_document (a : Atom) : Written a.document := by
  cases a with
  | repetition atom min max =>
      have hmax : Written (.ofOption .ofNat max) :=
        Json.written_ofOption fun n _ => Json.written_ofNat n
      simp [document, Json.written_record, hmax]
  | _ => simp [document, Json.written_record]

theorem oneField_record {α : Type} (name : String) (f : Json → Option α) (value : Json) :
    oneField name f (.record [(name, value)]) = f value := by
  have hfields : Json.allFields [name] (.record [(name, value)]) = some [value] :=
    Json.allFields_record rfl (by simp)
  simp [oneField, hfields]

theorem asList_ofNats {l : List Nat} (h : ∀ n ∈ l, n < UInt64.size) :
    Json.asList Json.asNat (.ofNats l) = some l :=
  Json.asList_array fun n hn => Json.asNat_ofNat (h n hn)

theorem ofDocument_document {a : Atom} (h : ∀ n ∈ a.numbers, n < UInt64.size) :
    ofDocument a.document = some a := by
  cases a with
  | rule r =>
      have hr := Json.asNat_ofNat (h r (by simp [numbers]))
      simp [document, ofDocument, Json.asCase_record, oneField_record, hr]
  | literal text =>
      simp [document, ofDocument, Json.asCase_record, oneField_record, Json.asString_ofString]
  | pattern p =>
      simp [document, ofDocument, Json.asCase_record, oneField_record, Json.asString_ofString]
  | token name =>
      simp [document, ofDocument, Json.asCase_record, oneField_record, Json.asString_ofString]
  | sequence atoms =>
      have hatoms : Json.asList Json.asNat (.ofNats atoms) = some atoms := asList_ofNats h
      simp [document, ofDocument, Json.asCase_record, oneField_record, hatoms]
  | choice atoms =>
      have hatoms : Json.asList Json.asNat (.ofNats atoms) = some atoms := asList_ofNats h
      simp [document, ofDocument, Json.asCase_record, oneField_record, hatoms]
  | repetition atom min max =>
      have hatom := Json.asNat_ofNat (h atom (by simp [numbers]))
      have hmin := Json.asNat_ofNat (h min (by simp [numbers]))
      have hmax : Json.asOption Json.asNat (.ofOption .ofNat max) = some max :=
        Json.asOption_ofOption (fun n hn => Json.asNat_ofNat (h n (by simp_all [numbers])))
          (by simp [Json.ofNat])
      -- A bound that is absent is written all the same, as null.
      have hfields : Json.fields ["atom", "min", "max"] (.record
          [("atom", .ofNat atom), ("min", .ofNat min), ("max", .ofOption .ofNat max)]) =
          some [some (.ofNat atom), some (.ofNat min), some (.ofOption .ofNat max)] :=
        Json.fields_record rfl (by decide)
      simp [document, ofDocument, Json.asCase_record, hfields, hatom, hmin, hmax]
  | lookahead atom positive =>
      have hatom := Json.asNat_ofNat (h atom (by simp [numbers, children]))
      have hfields : Json.allFields ["atom", "positive"] (.record
          [("atom", .ofNat atom), ("positive", .bool positive)]) =
            some [.ofNat atom, .bool positive] :=
        Json.allFields_record rfl (by decide)
      simp [document, ofDocument, Json.asCase_record, hfields, hatom, Json.asBool]
  | discard atom =>
      have hatom := Json.asNat_ofNat (h atom (by simp [numbers, children]))
      simp [document, ofDocument, Json.asCase_record, oneField_record, hatom]
  | splice atom =>
      have hatom := Json.asNat_ofNat (h atom (by simp [numbers, children]))
      simp [document, ofDocument, Json.asCase_record, oneField_record, hatom]

end Atom

namespace Rule

theorem written_document (r : Rule) : Written r.document := by
  simp [document, Json.written_record]

theorem ofDocument_document {r : Rule} (h : r.body < UInt64.size) :
    ofDocument r.document = some r := by
  have hfields : Json.allFields ["name", "body"] r.document =
      some [.ofString r.name, .ofNat r.body] :=
    Json.allFields_record rfl (by decide)
  simp [ofDocument, hfields, Json.asString_ofString, Json.asNat_ofNat h]

end Rule

namespace Grammar

/-- Tables and counts that 64 bits can number. -/
structure Fits (g : Grammar) : Prop where
  atoms : g.atoms.size ≤ UInt64.size
  rules : g.rules.size ≤ UInt64.size
  bounds : ∀ {atom min max}, Atom.repetition atom min max ∈ g.atoms →
    min < UInt64.size ∧ ∀ m ∈ max, m < UInt64.size

theorem written_document (g : Grammar) : Written g.document := by
  have hatoms : Written (.array (g.atoms.toList.map Atom.document)) := by
    simp [Atom.written_document]
  have hrules : Written (.array (g.rules.toList.map Rule.document)) := by
    simp [Rule.written_document]
  refine Json.written_record ?_
  simp [hatoms, hrules]

theorem WellFormed.numbers_lt {g : Grammar} (hwf : g.WellFormed) (hfits : g.Fits) {a : Atom}
    (ha : a ∈ g.atoms) : ∀ n ∈ a.numbers, n < UInt64.size := by
  obtain ⟨id, hid, hget⟩ := Array.mem_iff_getElem.1 ha
  have hat : g.atoms[id]? = some a := by rw [Array.getElem?_eq_getElem hid, hget]
  have hchild : ∀ c ∈ a.children, c < UInt64.size := fun c hc =>
    Nat.lt_of_lt_of_le (Nat.lt_trans (hwf.child_lt hat c hc) hid) hfits.atoms
  cases a with
  | rule r => simpa [Atom.numbers] using Nat.lt_of_lt_of_le (hwf.rule_lt hat) hfits.rules
  | repetition atom min max =>
      obtain ⟨hmin, hmax⟩ := hfits.bounds ha
      have hatom : atom < UInt64.size := hchild atom (by simp [Atom.children])
      simpa [Atom.numbers, hatom, hmin] using hmax
  | _ => exact hchild

theorem readParts_document {g : Grammar} (hwf : g.WellFormed) (hfits : g.Fits) :
    readParts g.document = some (g.atoms, g.rules, g.root) := by
  have hfields : Json.allFields ["atoms", "rules", "root"] g.document =
      some [.array (g.atoms.toList.map Atom.document),
        .array (g.rules.toList.map Rule.document), .ofNat g.root] :=
    Json.allFields_record rfl (by decide)
  have hatoms : Json.asList Atom.ofDocument (.array (g.atoms.toList.map Atom.document)) =
      some g.atoms.toList :=
    Json.asList_array fun a ha => Atom.ofDocument_document
      (hwf.numbers_lt hfits (Array.mem_toList_iff.1 ha))
  have hrules : Json.asList Rule.ofDocument (.array (g.rules.toList.map Rule.document)) =
      some g.rules.toList := by
    refine Json.asList_array fun r hr => Rule.ofDocument_document ?_
    obtain ⟨i, hi⟩ := Array.mem_iff_getElem?.1 (Array.mem_toList_iff.1 hr)
    exact Nat.lt_of_lt_of_le (hwf.body_lt hi) hfits.atoms
  have hroot := Json.asNat_ofNat (Nat.lt_of_lt_of_le hwf.root_lt hfits.rules)
  simp [readParts, hfields, hatoms, hrules, hroot]

/-- An accepted grammar is read back from its text, matchers included. -/
theorem ofJson_toJson {atoms : Array Atom} {rules : Array Rule} {root : RuleId} {g : Grammar}
    (h : ofParts atoms rules root = .ok g) (hfits : g.Fits) : ofJson g.toJson = .ok g := by
  have hparts : ofParts g.atoms g.rules g.root = .ok g := by
    obtain ⟨-, -, -, -, matchers, -, hg⟩ := assemble_eq_ok (assemble_of_ofParts h).1
    subst hg
    exact h
  rw [ofJson, toJson, g.written_document.read_text, Option.bind_some,
    readParts_document (ofParts_eq_ok h).1 hfits]
  exact hparts

end Grammar

end Seedling
