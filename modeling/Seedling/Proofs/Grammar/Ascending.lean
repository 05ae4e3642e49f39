import Seedling.Proofs.Grammar.Alike

/-!
Grammars without left recursion. If every rule calls only later rules before it has consumed
anything, no rule can come to itself, and there is no cycle for the checks to complain about. It
does no harm to take too many atoms for nullable when the calls are looked at.
-/

namespace Seedling.Grammar

variable {g : Grammar} {known known' : Array Bool} {r r' : RuleId}

theorem sequenceCalls_mono {calls calls' : AtomId → SortedSet RuleId} {atoms : List AtomId}
    (hknown : ∀ id, isNullableIn known id = true → isNullableIn known' id = true)
    (hcalls : ∀ a ∈ atoms, r ∈ calls a → r ∈ calls' a) (h : r ∈ sequenceCalls known calls atoms) :
    r ∈ sequenceCalls known' calls' atoms := by
  induction atoms with
  | nil => exact h
  | cons a atoms ih =>
      rw [List.forall_mem_cons] at hcalls
      rw [sequenceCalls] at h
      split at h
      · rename_i hnullable
        rcases SortedSet.mem_union.1 h with h | h
        · exact mem_sequenceCalls_head (hcalls.1 h)
        · exact mem_sequenceCalls_tail (hknown a hnullable) (ih hcalls.2 h)
      · exact mem_sequenceCalls_head (hcalls.1 h)

theorem leftCalls_mono (hknown : ∀ id, isNullableIn known id = true → isNullableIn known' id = true)
    {bound : Nat} {id : AtomId} (h : r ∈ g.leftCalls known bound id) :
    r ∈ g.leftCalls known' bound id := by
  induction bound generalizing id with
  | zero => exact h
  | succ bound ih =>
      rw [leftCalls_succ] at h ⊢
      cases hatom : g.atoms[id]? with
      | none =>
          rw [hatom] at h
          exact h
      | some atom =>
          rw [hatom] at h
          cases atom with
          | rule | literal | pattern | token => exact h
          | sequence atoms => exact sequenceCalls_mono hknown (fun a _ => ih) h
          | choice atoms =>
              rcases mem_foldl_union.1 h with h | ⟨a, ha, h⟩
              · exact absurd h (SortedSet.not_mem_empty r)
              · exact mem_foldl_union.2 (.inr ⟨a, ha, ih h⟩)
          | repetition | lookahead | discard | splice => exact ih h

/-- Every left call goes to a later rule, by the atoms that are taken for nullable. -/
def Ascending (g : Grammar) (known : Array Bool) : Prop :=
  ∀ r rule, g.rules[r]? = some rule → ∀ r' ∈ g.leftCalls known g.atoms.size rule.body, r < r'

variable (hg : g.WellFormed) (hascending : g.Ascending known)
  (hknown : ∀ id, isNullableIn g.nullable id = true → isNullableIn known id = true)

include hascending hknown in
theorem Ascending.lt_of_mem_ruleCalls (h : r' ∈ g.ruleCalls r) : r < r' := by
  rw [ruleCalls] at h
  cases hrule : g.rules[r]? with
  | none =>
      rw [hrule] at h
      exact absurd h (SortedSet.not_mem_empty r')
  | some rule =>
      rw [hrule] at h
      exact hascending r rule hrule r' (leftCalls_mono hknown h)

include hg hascending hknown in
theorem Ascending.lt_of_mem_reachOf (h : r' ∈ g.reachOf r) : r < r' := by
  obtain ⟨c, hc, hreach⟩ := hg.mem_reachOf.1 h
  clear h
  induction hreach with
  | refl => exact hascending.lt_of_mem_ruleCalls hknown hc
  | tail _ hnext ih => exact Nat.lt_trans ih (hascending.lt_of_mem_ruleCalls hknown hnext)

include hg hascending hknown in
/-- No rule comes to itself before it has consumed anything. -/
theorem Ascending.unresolvable_eq_none : g.leftEdge.unresolvable = none := by
  rw [LeftEdge.unresolvable, List.findSome?_eq_none_iff]
  intro r _
  have hnot : g.leftEdge.isLeftRecursive r = false := by
    rw [Bool.eq_false_iff]
    intro hself
    have hmem : r ∈ g.reachOf r := of_decide_eq_true hself
    exact Nat.lt_irrefl r (hascending.lt_of_mem_reachOf hg hknown hmem)
  rw [hnot, Bool.false_and]
  rfl

end Seedling.Grammar
