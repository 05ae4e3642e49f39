import Seedling.Automaton.Document
import Seedling.Proofs.Automaton.Dfa
import Seedling.Proofs.Json.Decode

/-!
Deterministic automata are read back from what is written of them.
-/

namespace Seedling.Automaton

open Json (Written)

theorem written_rowDocument {α : Type} {f : α → Json} (hf : ∀ a, Written (f a))
    (row : SortedMap UInt8 α) : Written (rowDocument f row) := by
  refine .object (fun m hm => ?_) fun m hm => ?_
  · obtain ⟨p, -, rfl⟩ := List.mem_map.1 hm
    exact ⟨_, (Json.escape_toDigits p.1.toNat).symm⟩
  · obtain ⟨p, -, rfl⟩ := List.mem_map.1 hm
    exact hf p.2

theorem readSet_setDocument {states : StateSet} (h : ∀ s ∈ states, s < UInt64.size) :
    readSet (setDocument states) = some states := by
  have hread : Json.asList Json.asNat (setDocument states) = some states.toList :=
    Json.asList_array fun s hs => Json.asNat_ofNat (h s hs)
  rw [readSet, hread, Option.map_some]
  exact congrArg some (SortedSet.ext_mem (by simp))

theorem readRow_rowDocument {row : SortedMap UInt8 Nat} (h : ∀ s ∈ row.values, s < UInt64.size) :
    readRow Json.asNat (rowDocument .ofNat row) = some row := by
  have hread : Json.asByteMap Json.asNat (rowDocument .ofNat row) = some row.toList :=
    Json.asByteMap_object fun p hp => Json.asNat_ofNat (h p.2 (List.mem_map_of_mem hp))
  rw [readRow, hread, Option.map_some, SortedMap.ofList_toList]

namespace Dfa

variable {d : Dfa}

theorem Valid.lt_of_mem_mentioned (hd : d.Valid) {s : Nat}
    (hs : s ∈ mentioned d.rows d.final d.unmergeable) : s < d.size := by
  simp only [mentioned, List.mem_append, List.mem_flatMap] at hs
  rcases hs with (⟨row, hrow, hs⟩ | hs) | hs
  · obtain ⟨p, hp, rfl⟩ := List.mem_map.1 hs
    obtain ⟨i, hi, rfl⟩ := List.mem_iff_getElem.1 hrow
    refine hd.next_lt (s := i) (b := p.1) ?_
    rw [next?, row, Array.getElem?_eq_getElem (by simpa using hi)]
    exact SortedMap.get?_eq_some_iff.2 hp
  · exact hd.final_lt hs
  · exact hd.unmergeable_lt hs

theorem Valid.ofParts_eq (hd : d.Valid) : ofParts d.names d.rows d.final d.unmergeable = .ok d := by
  have hnone : (mentioned d.rows d.final d.unmergeable).find? (fun s => d.names.size ≤ s) = none :=
    List.find?_eq_none.2 fun s hs => by simpa [size] using hd.lt_of_mem_mentioned hs
  have hrows : d.names.size = d.rows.size := hd.rows_size.symm
  have hpos : d.names.size ≠ 0 := Nat.ne_of_gt hd.size_pos
  rw [ofParts, if_neg (not_not.2 hrows), if_neg hpos, hnone]

theorem written_document (d : Dfa) : Written d.document := by
  refine Json.written_record ?_
  simp only [List.forall_mem_cons]
  refine ⟨Json.written_ofStrings _, ?_, Json.written_ofNats _, Json.written_ofNats _, by simp⟩
  refine Json.written_array.2 fun item hitem => ?_
  obtain ⟨row, -, rfl⟩ := List.mem_map.1 hitem
  exact written_rowDocument Json.written_ofNat row

theorem Valid.readParts_document (hd : d.Valid) (hsize : d.size ≤ UInt64.size) :
    readParts d.document = some (d.names, d.rows, d.final, d.unmergeable) := by
  have hlt : ∀ s ∈ mentioned d.rows d.final d.unmergeable, s < UInt64.size := fun s hs =>
    Nat.lt_of_lt_of_le (hd.lt_of_mem_mentioned hs) hsize
  simp only [mentioned, List.forall_mem_append, List.mem_flatMap] at hlt
  obtain ⟨⟨hrows, hfinal⟩, hunmergeable⟩ := hlt
  have hfields : Json.allFields ["names", "transitions", "final_states",
      "unmergeable_states"] d.document =
      some [.ofStrings d.names.toList, .array (d.rows.toList.map (rowDocument .ofNat)),
        setDocument d.final, setDocument d.unmergeable] :=
    Json.allFields_record rfl (by decide)
  have hnames : Json.asList Json.asString (.ofStrings d.names.toList) = some d.names.toList :=
    Json.asList_array fun s _ => Json.asString_ofString s
  have htable : Json.asList (readRow Json.asNat) (.array (d.rows.toList.map (rowDocument .ofNat))) =
      some d.rows.toList :=
    Json.asList_array fun row hrow => readRow_rowDocument fun s hs => hrows s ⟨row, hrow, hs⟩
  simp [readParts, hfields, hnames, htable, readSet_setDocument hfinal,
    readSet_setDocument hunmergeable]

/-- A valid automaton is read back from its text, down to the names of its states. -/
theorem Valid.ofJson_toJson (hd : d.Valid) (hsize : d.size ≤ UInt64.size) :
    ofJson d.toJson = .ok d := by
  rw [ofJson, toJson, d.written_document.readFront_text]
  dsimp only
  rw [hd.readParts_document hsize]
  dsimp only
  rw [hd.ofParts_eq]
  rfl

end Dfa

end Seedling.Automaton
