import DLedger.Cert.Provenance
import DLedger.Ledger.Keep
import DLedger.Ledger.Sample

set_option autoImplicit false

/-! # The provenance of the certificate store

With the default certificate manager, certificates and revocations come from the anchor, the
starting peers and confirmed records whose format was checked when they were received. Nothing
is assumed here of the configuration, the database, the writes to it or the exceptions that
escape: `CertInv` holds after every call, however it ends.
-/

namespace DLedger

open Tlv (Bytes Block)

/-- A tail of vetted records. -/
def VettedTail (ndn : Ndn) (anchorCert : Certificate) (tail : TailMap) : Prop :=
  ∀ (n : Name) (t : TailingRecordState), tail[n]? = some t → Vetted ndn anchorCert t.record

namespace LedgerImpl

/-- The manager has its provenance, and all records that are or may be confirmed are vetted. -/
structure CertInv (P : Peer DefaultCertificateManager) (anchorCert : Certificate)
    (startingPeers : List Certificate) (s : LedgerImpl DefaultCertificateManager) : Prop where
  provenance : Provenance P.ndn anchorCert startingPeers s.confirmations s.certManager
  tail : VettedTail P.ndn anchorCert s.tailRecords
  stack : ∀ it ∈ s.syncStack, Vetted P.ndn anchorCert it.1

variable {P : Peer DefaultCertificateManager} {anchorCert : Certificate}
  {startingPeers : List Certificate} {s : LedgerImpl DefaultCertificateManager}

theorem certInv_iff : CertInv P anchorCert startingPeers s ↔
    Keeps (fun s => Provenance P.ndn anchorCert startingPeers s.confirmations s.certManager)
      (Vetted P.ndn anchorCert) (Vetted P.ndn anchorCert) s :=
  ⟨fun h => ⟨h.provenance, h.tail, h.stack⟩, fun h => ⟨h.holds, h.tail, h.stack⟩⟩

/-- A confirmed record that is vetted keeps the provenance. -/
theorem provenance_confirmed (hP : P.certManager = DefaultCertificateManager.manager P.ndn)
    {amb : Ambient} {record : Record} (hr : Vetted P.ndn anchorCert record)
    (h : Provenance P.ndn anchorCert startingPeers s.confirmations s.certManager) :
    Provenance P.ndn anchorCert startingPeers (onRecordConfirmed P amb record s).1.confirmations
      (onRecordConfirmed P amb record s).1.certManager := by
  unfold LedgerImpl.onRecordConfirmed
  cases hdata : record.data with
  | none => exact h
  | some data =>
      have hconfirmed : Provenance P.ndn anchorCert startingPeers (record :: s.confirmations)
          s.certManager := h.mono (List.subset_cons_self _ _)
      have haccept : Provenance P.ndn anchorCert startingPeers (record :: s.confirmations)
          (P.certManager.acceptRecord s.certManager record) := by
        rw [hP]
        exact hconfirmed.acceptRecord hr List.mem_cons_self
      simp only
      cases record.type with
      | certificateRecord =>
          cases CertificateRecord.ofRecord P.ndn record with
          | error e => exact hconfirmed
          | ok certRecord => exact haccept
      | revocationRecord => exact haccept
      | baseRecord | genericRecord | genesisRecord => exact hconfirmed

/-- The provenance depends on the manager and the confirmations alone. -/
theorem provenance_frame (hP : P.certManager = DefaultCertificateManager.manager P.ndn) :
    CallFrame P (fun s => Provenance P.ndn anchorCert startingPeers s.confirmations s.certManager)
      (Vetted P.ndn anchorCert) (Vetted P.ndn anchorCert) where
  withTail _ _ h := h
  withStack _ _ h := h
  quiet s e he h := by
    rw [emit_confirmations, he.2]
    exact h
  confirm amb record s hr h := provenance_confirmed hP hr h
  blank := vetted_of_type (by decide) (by decide)
  waiting _ h := h
  insert _ _ _ _ h := h

/-! ## Runs -/

/-- A call that creates no certificate or revocation record. -/
def Call.IsGeneric : Call → Prop
  | .createRecord _ record => record.type = .genericRecord
  | _ => True

/-- The states of the runs that create generic records only. Writes to the database may fail,
and a run may go on after an exception has escaped from a call. -/
inductive ReachableAnyhow {σ : Type} (P : Peer σ) (db : Backend) (certManager : σ) :
    LedgerImpl σ → Prop where
  | start {amb : Ambient} {s : LedgerImpl σ} (h : construct P amb db certManager = (s, .ok ())) :
      ReachableAnyhow P db certManager s
  | call {s : LedgerImpl σ} {c : Call} (h : ReachableAnyhow P db certManager s)
      (hc : c.IsGeneric) : ReachableAnyhow P db certManager (LedgerImpl.call P c s).1

/-- A call that creates generic records only keeps the invariant: the format of what waits was
checked when it was received. -/
theorem CertInv.call (hP : P.certManager = DefaultCertificateManager.manager P.ndn)
    (h : CertInv P anchorCert startingPeers s) {c : Call} (hc : c.IsGeneric) :
    CertInv P anchorCert startingPeers (call P c s).1 := by
  apply certInv_iff.2
  apply (certInv_iff.1 h).call (provenance_frame hP)
  cases c with
  | createRecord amb record =>
      intro record' data hbuild
      obtain ⟨items, hpointers, _⟩ := buildRecord_ok hbuild
      obtain ⟨pointers, rfl, _⟩ := addPointers_ok hpointers
      have htype : record.type = .genericRecord := hc
      apply vetted_of_type <;> simp [htype]
  | onFetchedRecord amb data =>
      intro record hdec _ hcheck
      by_cases htype : record.type = .certificateRecord ∨ record.type = .revocationRecord
      · obtain ⟨_, _, _, _, hformat⟩ :=
          checkSyntaxOfRecord_ok (checkSyntaxValidityOfRecord_ok hdec hcheck)
        have hgood := hformat htype
        rw [hP] at hgood
        exact vetted_of_verifyRecordFormat h.provenance.anchor (Except.ok.inj hgood)
      · rw [not_or] at htype
        exact vetted_of_type htype.1 htype.2
  | onLedgerSyncRequest amb interest => trivial
  | onRecordRequest amb interest => trivial
  | sendSyncInterest amb => trivial

/-- The constructor adds genesis records only. -/
theorem CertInv.construct {amb : Ambient}
    (hP : P.certManager = DefaultCertificateManager.manager P.ndn)
    (db : Backend) {m : DefaultCertificateManager}
    (hm : Provenance P.ndn anchorCert startingPeers [] m) :
    CertInv P anchorCert startingPeers (construct P amb db m).1 := by
  apply certInv_iff.2
  refine Keeps.construct (provenance_frame hP) hm fun i record hdata => ?_
  have htype := (genesisData_ok hdata).1
  apply vetted_of_type <;> simp [htype]

/-- A run on packets is such a run. -/
theorem reachableAnyhow_run {σ : Type} {P : Peer σ} {certManager : σ} {packets : List Data}
    (h : (Sample.run P certManager packets).2 = .ok ()) :
    ReachableAnyhow P Backend.empty certManager (Sample.run P certManager packets).1 := by
  revert h
  unfold Sample.run
  rcases hstart : construct P Sample.ambient Backend.empty certManager with ⟨s, f | ⟨⟨⟩⟩⟩
  · intro h
    cases h
  · intro _
    exact Outcome.forEach_invariant (ReachableAnyhow P Backend.empty certManager)
      (fun data _ a ha => ha.call (c := .onFetchedRecord Sample.ambient data) trivial)
      (ReachableAnyhow.start hstart)

/-- **Every known certificate is the anchor, one of the starting ones, or signed by the anchor
and carried by a confirmed certificate record. Every revoked name was carried by a confirmed
revocation record whose producer is the anchor or the identity of that name.** -/
theorem certificates_provenance {db : Backend} {now : Int} {peerPrefix : Name}
    {m : DefaultCertificateManager}
    (hP : P.certManager = DefaultCertificateManager.manager P.ndn)
    (hm : DefaultCertificateManager.construct P.ndn now peerPrefix anchorCert startingPeers
      = .ok m) (h : ReachableAnyhow P db m s) :
    (∀ (identity : Name) (certs : List Certificate),
      s.certManager.peerCertificates[identity]? = some certs → ∀ cert ∈ certs,
        cert = anchorCert ∨ cert ∈ startingPeers ∨
          P.ndn.verifyData cert anchorCert = true ∧ ∃ r ∈ s.confirmations, ∃ certRecord,
            CertificateRecord.ofRecord P.ndn r = .ok certRecord ∧ cert ∈ certRecord.certList) ∧
    (∀ certName ∈ s.certManager.revokedCertificates, ∃ r ∈ s.confirmations,
      ∃ revokeRecord producer, RevocationRecord.ofRecord r = .ok revokeRecord ∧
        certName ∈ revokeRecord.revokedCertList ∧ r.getProducerPrefix = .ok producer ∧
          (producer = anchorCert.getIdentity ∨
            producer = DefaultCertificateManager.getCertificateNameIdentity certName)) := by
  have hinv : CertInv P anchorCert startingPeers s := by
    induction h with
    | @start amb s hstart =>
        have hconstruct : CertInv P anchorCert startingPeers (LedgerImpl.construct P amb db m).1 :=
          CertInv.construct hP db (Provenance.construct hm)
        rw [hstart] at hconstruct
        exact hconstruct
    | call _ hc ih => exact ih.call hP hc
  exact ⟨hinv.provenance.certificate, hinv.provenance.revoked⟩

/-- A certificate for one producer and a revocation of the certificate of another one, in records
of the anchor that the other one confirms. -/
def revocationPackets : List Data :=
  let r := Sample.revocationPacket 65 [Sample.certificateNdn.fullName (Sample.certificate 97)]
    [Sample.genesis]
  Sample.certificatePackets ++ [r, Sample.packet 97 1 [Sample.certificateNdn.fullName r]]

theorem certificates_provenance_confirmed :
    let s := (Sample.run Sample.certificatePeer Sample.certificateManager revocationPackets).1
    ((s.certManager.peerCertificates[[Component.generic [99]]]?).isSome = true ∧
      Sample.certificateNdn.fullName (Sample.certificate 97)
        ∈ s.certManager.revokedCertificates) ∧
    (∀ (identity : Name) (certs : List Certificate),
      s.certManager.peerCertificates[identity]? = some certs → ∀ cert ∈ certs,
        cert = Sample.certificate 65 ∨ cert ∈ [Sample.certificate 97] ∨
          Sample.certificateNdn.verifyData cert (Sample.certificate 65) = true ∧
            ∃ r ∈ s.confirmations, ∃ certRecord,
              CertificateRecord.ofRecord Sample.certificateNdn r = .ok certRecord ∧
                cert ∈ certRecord.certList) ∧
    (∀ certName ∈ s.certManager.revokedCertificates, ∃ r ∈ s.confirmations,
      ∃ revokeRecord producer, RevocationRecord.ofRecord r = .ok revokeRecord ∧
        certName ∈ revokeRecord.revokedCertList ∧ r.getProducerPrefix = .ok producer ∧
          (producer = (Sample.certificate 65).getIdentity ∨
            producer = DefaultCertificateManager.getCertificateNameIdentity certName)) :=
  ⟨by decide +kernel, certificates_provenance (P := Sample.certificatePeer) rfl
    (show DefaultCertificateManager.construct Sample.certificateNdn 0 [] (Sample.certificate 65)
      [Sample.certificate 97] = .ok Sample.certificateManager from rfl)
    (reachableAnyhow_run (by decide +kernel))⟩

end LedgerImpl

end DLedger
