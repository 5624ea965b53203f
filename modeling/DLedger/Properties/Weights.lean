import DLedger.Ledger.Counted
import DLedger.Ledger.Sample

set_option autoImplicit false

/-! # The weight of a record

The weight of a tailing record is the number of producers in its reference set. The set is
what the log of insertions says it should be, whatever left the tail in between.
-/

namespace DLedger

open Tlv (Bytes Block)

namespace LedgerImpl

variable {σ : Type} {P : Peer σ} {s : LedgerImpl σ} {certManager : σ}

/-- **The reference set of a tailing record holds exactly the producers, other than its own,
of the records that were inserted as endorsed since it was last inserted and that reach it
by one or more pointers.** Full names do not collide. -/
theorem refSet_exact (hpos : 1 ≤ P.config.confirmWeight) (hsmall : P.config.SmallWeights)
    (h : Reachable P Backend.empty certManager s)
    (hinj : Set.InjOn P.ndn.fullName (insertedData s.insertions)) {n : Name}
    {t : TailingRecordState} (ht : s.tailRecords[n]? = some t) (a : Name) :
    a ∈ t.refSet ↔ ∃ r, (r, true) ∈ since P.ndn s.insertions n ∧
      Relation.TransGen (PointsTo P.ndn s.insertions) (r.getRecordName P.ndn) n ∧
      a = RecordName.getProducerPrefix (r.getRecordName P.ndn) ∧
      a ≠ RecordName.getProducerPrefix n :=
  (h.exact hpos hsmall).refSet hinj n t ht a

/-- The first of two records is reached by the second. -/
theorem refSet_exact_twoPackets :
    let P := Sample.peer (Sample.config 1 1 1)
    let s := (Sample.run P () Sample.twoPackets).1
    let n := Sample.ndn.fullName (Sample.packet 97 0 [Sample.genesis])
    ∃ t, s.tailRecords[n]? = some t ∧ ∀ a, a ∈ t.refSet ↔
      ∃ r, (r, true) ∈ since P.ndn s.insertions n ∧
        Relation.TransGen (PointsTo P.ndn s.insertions) (r.getRecordName P.ndn) n ∧
        a = RecordName.getProducerPrefix (r.getRecordName P.ndn) ∧
        a ≠ RecordName.getProducerPrefix n := by
  intro P s n
  obtain ⟨t, ht⟩ := Option.isSome_iff_exists.1
    (show (s.tailRecords[n]?).isSome = true by decide +kernel)
  have hnames : ∀ ins ∈ s.insertions, ∀ ins' ∈ s.insertions,
      ins.1.getRecordName Sample.ndn = ins'.1.getRecordName Sample.ndn →
        ins.1.data = ins'.1.data := by
    decide +kernel
  refine ⟨t, ht, fun a => refSet_exact (P := P) (by decide)
    (Sample.smallWeights (by decide) (by decide)) (Sample.reachable_run Sample.run_twoPackets)
    (injOn_insertedData hnames) ht a⟩

end LedgerImpl

end DLedger
