import DLedger.Ledger.Sample

set_option autoImplicit false

/-! # No empty optional is dereferenced

`getRecord` returns nothing for a tailing record that is not verified, and
`addToTailingRecord` dereferences its result in three places without a test. The two flags of
every entry agree, so none of the three meets such a record.
-/

namespace DLedger

open Tlv (Bytes Block)

namespace LedgerImpl

variable {σ : Type} {P : Peer σ} {s : LedgerImpl σ} {certManager : σ} {db : Backend}

/-- **In every reachable state, on any database, the two flags of every entry agree, and no
call dereferences an empty optional**, though `getRecord` returns one for every entry that is
not verified. -/
theorem getRecord_defined (hpos : 1 ≤ P.config.confirmWeight) (hsmall : P.config.SmallWeights)
    (h : Reachable P db certManager s) :
    (∀ (n : Name) (t : TailingRecordState), s.tailRecords[n]? = some t →
      t.parentEndorseVerified = t.recordEndorseVerified) ∧
    (∀ (n : Name) (t : TailingRecordState), s.tailRecords[n]? = some t →
      t.parentEndorseVerified = false → s.getRecord P n = .ok none) ∧
    (∀ c, Admissible P s c → (call P c s).2 ≠ .error .nullDereference) := by
  have hinv := h.inv hpos hsmall
  refine ⟨hinv.tail.sound.flags, fun n t ht hv => ?_, fun c hc => ?_⟩
  · simp only [LedgerImpl.getRecord, ht, hv, Bool.false_eq_true, if_false]
  · exact (call_safe hpos hsmall hinv hc).defined

theorem getRecord_defined_twoPackets :
    let P := Sample.peer (Sample.config 1 1 1)
    let s := (Sample.run P () Sample.twoPackets).1
    (∀ (n : Name) (t : TailingRecordState), s.tailRecords[n]? = some t →
      t.parentEndorseVerified = t.recordEndorseVerified) ∧
    (∀ (n : Name) (t : TailingRecordState), s.tailRecords[n]? = some t →
      t.parentEndorseVerified = false → s.getRecord P n = .ok none) ∧
    (∀ c, Admissible P s c → (call P c s).2 ≠ .error .nullDereference) :=
  getRecord_defined (P := Sample.peer (Sample.config 1 1 1)) (by decide)
    (Sample.smallWeights (by decide) (by decide)) (Sample.reachable_run Sample.run_twoPackets)

end LedgerImpl

end DLedger
