import DLedger.Ledger.Evict

set_option autoImplicit false

/-! # What a timeout removes

`removeTimeoutRecords` erases one generation of records after the other until a generation is
empty. Every generation but the first has been read from the tail that it is erased from, so each
round makes the tail smaller, whatever the pointers are, and the loop ends. What it has erased
then is the closure of the expired records under the records that point to them.
-/

namespace DLedger

open Tlv (Bytes Block)

namespace LedgerImpl

/-! ## The loop without a bound -/

/-- The loop `while (!timeoutList.empty())`, as a relation between the tail that it starts from
and the tail that it ends with. -/
inductive Erases : List Name → TailMap → TailMap → Prop where
  | done {tail : TailMap} : Erases [] tail tail
  | round {timeoutList : List Name} {tail tail' : TailMap} (nonempty : timeoutList ≠ [])
      (next : Erases
        (childrenOf timeoutList (timeoutList.foldl (fun tail i => tail.erase i) tail))
        (timeoutList.foldl (fun tail i => tail.erase i) tail) tail') :
      Erases timeoutList tail tail'

theorem Erases.unique {timeoutList : List Name} {tail tail₁ tail₂ : TailMap}
    (h₁ : Erases timeoutList tail tail₁) (h₂ : Erases timeoutList tail tail₂) :
    tail₁ = tail₂ := by
  induction h₁ with
  | done =>
      cases h₂ with
      | done => rfl
      | round nonempty _ => exact absurd rfl nonempty
  | round nonempty _ ih =>
      cases h₂ with
      | done => exact absurd rfl nonempty
      | round _ next => exact ih next

/-- The next generation is a part of the tail. -/
theorem childrenOf_subset (timeoutList : List Name) (tail : TailMap) :
    ∀ x ∈ childrenOf timeoutList tail, x ∈ tailNames tail := by
  intro x hx
  obtain ⟨t, ht, _⟩ := mem_childrenOf.1 hx
  rw [mem_tailNames, ht]
  rfl

/-- With a bound above the number of tailing records the loop ends by its own test. -/
theorem erases_removeGenerations (fuel : Nat) (timeoutList : List Name) (tail : TailMap)
    (hsub : ∀ x ∈ timeoutList, x ∈ tailNames tail) (hfuel : (tailNames tail).card < fuel) :
    Erases timeoutList tail (removeGenerations fuel timeoutList tail) := by
  induction fuel generalizing timeoutList tail with
  | zero => exact absurd hfuel (Nat.not_lt_zero _)
  | succ fuel ih =>
      rw [removeGenerations]
      cases timeoutList with
      | nil => exact Erases.done
      | cons n names =>
          have hremoved : (n :: names).toFinset ⊆ tailNames tail := fun x hx =>
            hsub x (List.mem_toFinset.1 hx)
          have hpos : 0 < (n :: names).toFinset.card :=
            Finset.card_pos.2 ⟨n, List.mem_toFinset.2 List.mem_cons_self⟩
          have hcard := Finset.card_sdiff_of_subset hremoved
          have hle := Finset.card_le_card hremoved
          refine Erases.round (List.cons_ne_nil n names) (ih _ _ (childrenOf_subset _ _) ?_)
          rw [tailNames_foldl_erase]
          omega

/-! ## The whole function -/

variable {σ : Type} (P : Peer σ) (amb : Ambient)

/-- **`removeTimeoutRecords` removes exactly the records from which a path of pointers inside the
tail leads to an expired one.** From the expired records its loop ends, with one result; the
entries that remain are the old ones, none of them points to a record that was removed, and
nothing but the tail changes. -/
theorem removeTimeoutRecords_exact (s : LedgerImpl σ) :
    (∀ tail', Erases
        (timedOut P.config (amb.now - P.config.blockConfirmationTimeout) s.tailRecords)
        s.tailRecords tail' ↔ tail' = (removeTimeoutRecords P amb s).tailRecords) ∧
    (∀ (x : Name) (t : TailingRecordState),
      (removeTimeoutRecords P amb s).tailRecords[x]? = some t ↔
        s.tailRecords[x]? = some t ∧ ¬ Evicted s.tailRecords.lookup P.config amb x) ∧
    (∀ (x : Name) (t : TailingRecordState),
      (removeTimeoutRecords P amb s).tailRecords[x]? = some t →
      ∀ p ∈ t.record.recordPointers, (∃ u, s.tailRecords[p]? = some u) →
        ∃ u, (removeTimeoutRecords P amb s).tailRecords[p]? = some u) ∧
    removeTimeoutRecords P amb s = s.withTail (removeTimeoutRecords P amb s).tailRecords := by
  have hkept := removeTimeoutRecords_getElem? P amb s
  refine ⟨fun tail' => ?_, hkept, fun x t ht p hp hu => ?_, rfl⟩
  · have hsub : ∀ x ∈ timedOut P.config (amb.now - P.config.blockConfirmationTimeout)
        s.tailRecords, x ∈ tailNames s.tailRecords := by
      intro x hx
      obtain ⟨t, ht, _⟩ := mem_timedOut.1 hx
      rw [mem_tailNames, ht]
      rfl
    have hends := erases_removeGenerations (s.tailRecords.size + 1) _ s.tailRecords hsub
      (Nat.lt_succ_of_le (card_tailNames_le s.tailRecords))
    constructor
    · exact fun h => h.unique hends
    · rintro rfl
      exact hends
  · -- a pointer to a removed record makes its own record one that is removed
    obtain ⟨u, hu⟩ := hu
    obtain ⟨ht, hstays⟩ := (hkept x t).1 ht
    exact ⟨u, (hkept p u).2 ⟨hu, fun he => hstays (he.of_pointer ht hu hp)⟩⟩

end LedgerImpl

end DLedger
