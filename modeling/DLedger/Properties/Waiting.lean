import DLedger.Delivery.Quiescent
import DLedger.Ledger.Sample

set_option autoImplicit false

/-! # What waits in the sync stack

Between the calls every entry of the sync stack has a name of its own that is not seen, and misses
an ancestor. This needs no assumption on the weights, on the database a run starts with or on the
writes to it.
-/

namespace DLedger

open Tlv (Bytes Block)

namespace LedgerImpl

variable {σ : Type} {P : Peer σ} {s : LedgerImpl σ}

/-- The calls that return, where full names are digests. -/
def ReturnsDigested (P : Peer σ) (s : LedgerImpl σ) (c : Call) : Prop :=
  DigestNames P s c ∧ (call P c s).2 = .ok ()

theorem RunsTo.quiescent {db : Backend} {certManager : σ} (hformat : ReadableFormat P)
    (h : RunsTo P db certManager (ReturnsDigested P) s) : LedgerCore P s ∧ Quiescent P s := by
  induction h with
  | start hstart =>
      obtain ⟨hcore, hempty⟩ := construct_core hstart
      refine ⟨hcore, fun it hit => ?_⟩
      rw [hempty] at hit
      cases hit
  | @call s c _ hc ih =>
      exact call_quiescent hformat ih.1 ih.2 hc.1 (Outcome.eq_of_returns hc.2)

/-- **Nothing waits in the sync stack that is seen, that waits twice or that could be added.** The
loop over the stack ends by its own test, with nothing left that could be added, and a received
packet adds each record once. -/
theorem syncStack_waits {db : Backend} {certManager : σ} (hformat : ReadableFormat P)
    (h : RunsTo P db certManager (ReturnsDigested P) s) :
    (s.syncStack.map fun it => it.1.getRecordName P.ndn).Nodup ∧
      (∀ it ∈ s.syncStack, s.tailRecords.contains (it.1.getRecordName P.ndn) = false ∧
        s.backend.getRecord P.ndn (it.1.getRecordName P.ndn) = none ∧ Waits P s it.1) ∧
      (∀ amb (a : LedgerImpl σ),
        (∀ fuel, a.syncStack.length + 2 ≤ fuel → rescanStack P amb fuel none a
          = rescanStack P amb (a.syncStack.length + 2) none a) ∧
        ∀ b, rescanStack P amb (a.syncStack.length + 2) none a = (b, .ok ()) → Quiescent P b) ∧
      ∀ amb data s', onFetchedRecord P amb data s = (s', .ok ()) →
        ∃ new, s'.insertions = new ++ s.insertions ∧
          (new.map fun x => x.1.getRecordName P.ndn).Nodup ∧
          ∀ x ∈ new, s.seenRecord P (x.1.getRecordName P.ndn) = false := by
  obtain ⟨hcore, hquiescent⟩ := h.quiescent hformat
  refine ⟨hcore.stack.nodup, fun it hit => ?_, fun amb a => ⟨fun fuel => rescanStack_fuel, ?_⟩,
    fun amb data s' hrun => onFetchedRecord_insertions hcore hrun⟩
  · obtain ⟨n, hn, htail, hstored⟩ := hcore.stack.waiting it hit
    rw [hn.getRecordName, Std.TreeMap.contains_eq_isSome_getElem?, htail]
    exact ⟨rfl, hstored, (readyToAdd_eq_false_iff.1 (hquiescent it hit)).2⟩
  · exact fun b hrun => rescanStack_quiescent (by omega) (by simp) hrun

/-- A ledger that has received a certificate record before the one that it succeeds. -/
def afterSuccessor : LedgerImpl DefaultCertificateManager :=
  (call Sample.certificatePeer (.onFetchedRecord Sample.ambient
      (Sample.successorPacket 65 (Sample.certificateNdn.fullName
        (Sample.certificatePacket 65 99 [Sample.genesis])) [Sample.genesis]))
    (construct Sample.certificatePeer Sample.ambient Backend.empty Sample.certificateManager).1).1

theorem syncStack_waits_afterSuccessor :
    afterSuccessor.syncStack.length = 1 ∧
      ∀ it ∈ afterSuccessor.syncStack, Waits Sample.certificatePeer afterSuccessor it.1 := by
  have hstart : (construct Sample.certificatePeer Sample.ambient Backend.empty
      Sample.certificateManager).2 = .ok () := by
    decide +kernel
  have hrun : RunsTo Sample.certificatePeer Backend.empty Sample.certificateManager
      (ReturnsDigested Sample.certificatePeer) afterSuccessor :=
    (RunsTo.start (Outcome.eq_of_returns hstart)).call ⟨trivial, by decide +kernel⟩
  refine ⟨by decide +kernel, fun it hit => ?_⟩
  exact ((syncStack_waits (readableFormat_default rfl) hrun).2.1 it hit).2.2

end LedgerImpl

end DLedger
