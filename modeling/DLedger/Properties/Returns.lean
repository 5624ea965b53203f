import DLedger.Cert.Accept
import DLedger.Ledger.Sample

set_option autoImplicit false

/-! # Which packets make a handler throw

Decoders throw, and not all of them are called inside of a `try` block. With the default
certificate manager an exception escapes from the handler of a sync Interest where the Interest
has no readable key name, or where it is verified and its parameters cannot be read. It escapes
from the handler of a record packet where the name of a packet that passed the syntax check
already ends with a digest: the full name is then no record name, and the weight walk throws.
-/

namespace DLedger

open Tlv (Bytes Block)

namespace LedgerImpl

section SyncInterest

variable {σ : Type} {P : Peer σ} {s s' : LedgerImpl σ}

/-! ## Sync Interests -/

end SyncInterest

/-! ## Record Interests -/

section RecordInterest

variable {σ : Type} {P : Peer σ} {s : LedgerImpl σ}

end RecordInterest

/-! ## Received packets -/

section Packets

variable {P : Peer DefaultCertificateManager} {amb : Ambient}
  {s s' : LedgerImpl DefaultCertificateManager}

/-- A record of the sync stack that can be added, as its full name is a record name. -/
structure Addable (P : Peer DefaultCertificateManager) (r : Record) : Prop where
  decoded : ∃ d, r.data = some d ∧ Record.ofData P.ndn d = .ok r ∧
    RecordName.hasImplicitDigest d.name = false
  readable : Readable P.ndn r

/-- The name of a received packet that passes the syntax check does not end with a digest. -/
def UndigestedNames (P : Peer DefaultCertificateManager)
    (s : LedgerImpl DefaultCertificateManager) : Call → Prop
  | .onFetchedRecord amb data => checkSyntaxValidityOfRecord P amb data s = .ok true →
      RecordName.hasImplicitDigest data.name = false
  | _ => True

variable (hP : P.certManager = DefaultCertificateManager.manager P.ndn)
include hP

theorem addable_of_checked {data : Data} {record : Record}
    (hdec : Record.ofData P.ndn data = .ok record)
    (hcheck : checkSyntaxValidityOfRecord P amb data s = .ok true)
    (hdigest : RecordName.hasImplicitDigest data.name = false) : Addable P record := by
  refine ⟨⟨data, (Record.ofData_eq_ok hdec).2.1, hdec, hdigest⟩, fun htype => ?_⟩
  obtain ⟨_, _, _, _, hformat⟩ :=
    checkSyntaxOfRecord_ok (checkSyntaxValidityOfRecord_ok hdec hcheck)
  have hgood := hformat (Or.inl htype)
  rw [hP] at hgood
  simp only [DefaultCertificateManager.manager, DefaultCertificateManager.verifyRecordFormat, htype,
    Except.ok.injEq, Bool.and_eq_true] at hgood
  cases hread : CertificateRecord.ofRecord P.ndn record with
  | error e => simp [hread] at hgood
  | ok certRecord => exact ⟨certRecord, rfl⟩

/-- **The check of a waiting record returns.** -/
theorem LedgerInv.checkRecordAncestor_returns (hs : LedgerInv P s) {it : Record × Int}
    (hit : it ∈ s.syncStack) (hadd : Addable P it.1) (f : Fault) :
    (checkRecordAncestor P amb it.1 s).2 ≠ .error f := by
  obtain ⟨⟨d, hd, hdec, hdigest⟩, hread⟩ := hadd
  have hcheck := (Record.ofData_eq_ok hdec).1
  have hready : ∃ ready, readyToAdd P it.1 s = .ok ready := by
    unfold readyToAdd
    split_ifs with htype
    · obtain ⟨c, hc⟩ := hread htype
      rw [hc]
      exact ⟨_, rfl⟩
    · exact ⟨_, rfl⟩
  obtain ⟨ready, hready⟩ := hready
  refine hs.checkRecordAncestor_ok hit hd (RecordName.check_concat _ hcheck hdigest) hready
    (fun _ => ?_) f
  obtain ⟨b, hend, _⟩ := DefaultCertificateManager.endorseSignature_ok P.ndn (m := s.certManager)
    (RecordName.ofName_of_check hcheck)
  simp only [checkEndorseValidityOfRecord, hdec, hP, DefaultCertificateManager.manager, hend,
    bind, Except.bind, Except.mapError, pure, Except.pure]
  split_ifs
  · cases amb.onRecordAppEndorseCheck <;> exact ⟨_, rfl⟩
  · exact ⟨_, rfl⟩

omit hP in
/-- Nothing new comes to wait without a received packet. -/
theorem ReceiveMoves.stack_subset (h : ReceiveMoves P amb (fun _ => False) s s') :
    s'.syncStack ⊆ s.syncStack := by
  induction h with
  | refl => exact List.Subset.refl _
  | tail _ hmove ih =>
      refine List.Subset.trans ?_ ih
      cases hmove with
      | emit quiet => exact List.Subset.refl _
      | push receive => exact absurd receive not_false
      | @drop before rest it stack late =>
          rw [withStack_syncStack, stack]
          exact ((List.Sublist.refl before).append (List.sublist_cons_self it rest)).subset
      | @resolve s₁ before rest it data endorseVerified stack ready data_eq endorse added =>
          rw [withStack_syncStack, stack]
          exact ((List.Sublist.refl before).append (List.sublist_cons_self it rest)).subset

/-- **The handler of a record packet returns** when all that waits can be added. -/
theorem onFetchedRecord_returns (hpos : 1 ≤ P.config.confirmWeight)
    (hsmall : P.config.SmallWeights) (hput : Ambient.Writes amb) (hs : LedgerInv P s)
    (hstack : ∀ it ∈ s.syncStack, Addable P it.1) {data : Data}
    (hdata : UndigestedNames P s (.onFetchedRecord amb data)) :
    (onFetchedRecord P amb data s).2 = .ok () := by
  rcases onFetchedRecord_cases P amb data s with hrun | ⟨record, hr⟩
  · rw [hrun]
  have hmoves : ReceiveMoves P amb (fun _ => True) s (received P amb.now record s) :=
    hr.moves trivial
  have hinv := hs.receiveMoves hpos hsmall hput hmoves
  have hall : ∀ it ∈ (received P amb.now record s).syncStack, Addable P it.1 := by
    intro it hit
    rcases List.mem_append.1 hit with hit | hit
    · exact hstack it hit
    · rw [List.mem_singleton.1 hit]
      exact addable_of_checked hP hr.decoded hr.checked (hdata hr.checked)
  rw [hr.onFetchedRecord_eq]
  split_ifs
  · have htraced : Traced P amb (fun _ => False) (received P amb.now record s) (rescanStack P amb
        ((received P amb.now record s).syncStack.length + 2) none
        (received P amb.now record s)) := rescanStack_traced _ none _
    rcases hscan : (rescanStack P amb ((received P amb.now record s).syncStack.length + 2) none
        (received P amb.now record s)).2 with f | ⟨⟨⟩⟩
    · obtain ⟨a, it, hmoves, hit, hfault⟩ := htraced.raised f hscan
      exact absurd hfault ((hinv.receiveMoves hpos hsmall hput hmoves).checkRecordAncestor_returns
        hP hit (hall it (hmoves.stack_subset hit)) f)
    · rfl
  · rfl

end Packets

end LedgerImpl

end DLedger
