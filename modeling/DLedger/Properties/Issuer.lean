import DLedger.Cert.Accept
import DLedger.Ledger.Sample

set_option autoImplicit false

/-! # Who issues certificate records

Certificate records are meant to be accepted from the identity manager only, the identity of the
trust anchor. The format check asks whether the anchor's identity is a prefix of the full name of
the record, which it is for every producer under that identity as well.
-/

namespace DLedger

open Tlv (Bytes Block)

/-- A packet that is no certificate record, or one of this producer. -/
def Issued (identity : Name) (data : Data) : Prop :=
  RecordName.getRecordType data.name = .certificateRecord →
    RecordName.getProducerPrefix data.name = identity

/-- A certificate record of a known producer whose name lies under the anchor's. -/
def NestedIssuer (ndn : Ndn) (m : DefaultCertificateManager) (data : Data) : Prop :=
  RecordName.getRecordType data.name = .certificateRecord ∧
    m.anchorCert.getIdentity.isPrefixOf (ndn.fullName data) = true ∧
    RecordName.getProducerPrefix data.name ≠ m.anchorCert.getIdentity ∧
    m.verifySignature ndn data = .ok true

namespace LedgerImpl

variable {P : Peer DefaultCertificateManager} {amb : Ambient} {db : Backend} {identity : Name}
  {created : Set Data} {m : DefaultCertificateManager} {s : LedgerImpl DefaultCertificateManager}

/-- Every certificate record that the ledger holds is of this producer, but for those that the
peer has created itself or that were in the database at the start. -/
structure CertificatesIssued (P : Peer DefaultCertificateManager) (db : Backend)
    (created : Set Data) (identity : Name) (s : LedgerImpl DefaultCertificateManager) : Prop where
  stack : ∀ it ∈ s.syncStack, ∀ d, it.1.data = some d → Issued identity d
  tail : ∀ (n : Name) (t : TailingRecordState), s.tailRecords[n]? = some t →
    ∀ d, t.record.data = some d → d ∈ created ∨ Issued identity d
  backend : ∀ (n : Name) (d : Data), s.backend.getRecord P.ndn n = some d →
    db.getRecord P.ndn n = some d ∨ d ∈ created ∨ Issued identity d

/-- No received packet is a certificate record of a known producer under the anchor's name, and
`created` has the packets that the peer builds itself. -/
def NoNestedIssuer (P : Peer DefaultCertificateManager) (created : Set Data)
    (s : LedgerImpl DefaultCertificateManager) : Call → Prop
  | .createRecord amb record => ∀ record' data,
      buildRecord P amb record s = (record', .ok (.ok data)) → data ∈ created
  | .onFetchedRecord _ data => ¬ NestedIssuer P.ndn s.certManager data
  | _ => True

/-- **A certificate record that passes the check is of the anchor or of a producer under its
name.** -/
theorem issued_of_checked (hP : P.certManager = DefaultCertificateManager.manager P.ndn)
    {data : Data} {record : Record} (hdec : Record.ofData P.ndn data = .ok record)
    (hcheck : checkSyntaxValidityOfRecord P amb data s = .ok true)
    (hnested : ¬ NestedIssuer P.ndn s.certManager data) :
    Issued s.certManager.anchorCert.getIdentity data := by
  intro htype
  obtain ⟨_, _, hsigned, _, hformat⟩ :=
    checkSyntaxOfRecord_ok (checkSyntaxValidityOfRecord_ok hdec hcheck)
  have hrecord : record.type = .certificateRecord := (Record.ofData_eq_ok hdec).2.2.1.trans htype
  have hgood := hformat (Or.inl hrecord)
  rw [hP] at hsigned hgood
  have hpre : s.certManager.anchorCert.getIdentity.isPrefixOf (P.ndn.fullName data) = true := by
    have hall : s.certManager.verifyRecordFormat P.ndn record = true := Except.ok.inj hgood
    simp only [DefaultCertificateManager.verifyRecordFormat, hrecord, Bool.and_eq_true,
      Record.getRecordName_of_ofData hdec] at hall
    exact hall.1
  by_contra hne
  exact hnested ⟨htype, hpre, hne, hsigned⟩

/-- A genesis record is no certificate record. -/
theorem issued_genesis {i : Nat} {record : Record} (h : genesisData P i = .ok record) {d : Data}
    (hd : record.data = some d) : Issued identity d := by
  obtain ⟨hne, halpha⟩ := toString_alphanumeric i
  unfold genesisData at h
  simp only at h
  cases hcontent : (genesisRecord (toString i)).wireEncode with
  | error e => rw [hcontent] at h; cases h
  | ok content =>
      rw [hcontent] at h
      cases h
      cases hd
      intro htype
      have hread : RecordName.getRecordType
          (RecordName.build P.ndn genesisPrefix .genesisRecord (toString i) 0) = .genesisRecord :=
        (read_build (P.ndn.ofUri_alphanumeric _ hne halpha) _ _ _).1
      rw [show generateRecordName P.ndn P.config.peerPrefix (genesisRecord (toString i)) 0
        = RecordName.build P.ndn genesisPrefix .genesisRecord (toString i) 0 from rfl, hread]
        at htype
      cases htype

/-- The anchor has this identity, and the database has what it should have. -/
structure StoreIssued (P : Peer DefaultCertificateManager) (db : Backend) (created : Set Data)
    (identity : Name) (s : LedgerImpl DefaultCertificateManager) : Prop where
  anchor : s.certManager.anchorCert.getIdentity = identity
  backend : ∀ (n : Name) (d : Data), s.backend.getRecord P.ndn n = some d →
    db.getRecord P.ndn n = some d ∨ d ∈ created ∨ Issued identity d

/-- The anchor stays, and what is stored is what was confirmed. -/
theorem storeIssued_frame (hP : P.certManager = DefaultCertificateManager.manager P.ndn) :
    CallFrame P (StoreIssued P db created identity)
      (fun r => ∀ d, r.data = some d → Issued identity d)
      (fun r => ∀ d, r.data = some d → d ∈ created ∨ Issued identity d) where
  withTail _ _ h := ⟨h.anchor, h.backend⟩
  withStack _ _ h := ⟨h.anchor, h.backend⟩
  quiet _ _ _ h := ⟨h.anchor, h.backend⟩
  confirm amb record s hr h := by
    constructor
    · rcases onRecordConfirmed_certManager_cases P amb record s with hsame | haccept
      · rw [hsame]
        exact h.anchor
      · rw [haccept, hP]
        show (s.certManager.acceptRecord P.ndn record).anchorCert.getIdentity = identity
        rw [(DefaultCertificateManager.acceptRecord_spec P.ndn s.certManager record).2.1]
        exact h.anchor
    · intro n d hd
      rcases onRecordConfirmed_getRecord P amb hd with hd | ⟨hdata, _⟩
      · exact h.backend n d hd
      · exact Or.inr (hr d hdata)
  blank d hd := by cases hd
  waiting record h d hd := Or.inr (h d hd)
  insert _ _ _ _ h := ⟨h.anchor, h.backend⟩

/-- **In a run without certificate records of known producers under the anchor's name, only the
anchor issues certificate records.** -/
theorem certificates_issued (hP : P.certManager = DefaultCertificateManager.manager P.ndn)
    (h : RunsTo P db m (NoNestedIssuer P created) s) :
    CertificatesIssued P db created m.anchorCert.getIdentity s := by
  have hframe : CallFrame P (StoreIssued P db created m.anchorCert.getIdentity) _ _ :=
    storeIssued_frame hP
  have hkeep := h.keeps hframe ⟨rfl, fun n d hd => Or.inl hd⟩
    (fun i record hrecord d hd => Or.inr (issued_genesis hrecord hd)) fun s c hs hc => by
      cases c with
      | createRecord amb record =>
          intro record' data hbuild d hd
          cases hd
          exact Or.inl (hc record' data hbuild)
      | onFetchedRecord amb data =>
          intro record hdec _ hcheck d hd
          rw [(Record.ofData_eq_ok hdec).2.1] at hd
          cases hd
          rw [← hs.holds.anchor]
          exact issued_of_checked hP hdec hcheck hc
      | _ => trivial
  exact ⟨hkeep.stack, hkeep.tail, hkeep.holds.backend⟩

/-- A certificate record of the anchor. -/
theorem certificates_issued_certificatePacket :
    let s := (construct Sample.certificatePeer Sample.ambient Backend.empty
      Sample.certificateManager).1
    CertificatesIssued Sample.certificatePeer Backend.empty ∅ (Sample.certificate 65).getIdentity
      (onFetchedRecord Sample.certificatePeer Sample.ambient
        (Sample.certificatePacket 65 99 [Sample.genesis]) s).1 := by
  intro s
  have hstart : construct Sample.certificatePeer Sample.ambient Backend.empty
      Sample.certificateManager = (s, .ok ()) :=
    Outcome.eq_of_returns (by decide +kernel)
  have hanchor : RecordName.getProducerPrefix
      (Sample.certificatePacket 65 99 [Sample.genesis]).name
        = s.certManager.anchorCert.getIdentity := by
    decide +kernel
  have hrun : RunsTo Sample.certificatePeer Backend.empty Sample.certificateManager
      (NoNestedIssuer Sample.certificatePeer ∅)
      (call Sample.certificatePeer (.onFetchedRecord Sample.ambient
        (Sample.certificatePacket 65 99 [Sample.genesis])) s).1 :=
    (RunsTo.start hstart).call fun hnested => hnested.2.2.1 hanchor
  exact certificates_issued rfl hrun

/-- **A producer under the anchor's name gets a certificate record accepted.** -/
theorem not_certificates_issued_nestedPacket :
    let s := (Sample.run Sample.certificatePeer Sample.nestedManager [Sample.nestedPacket]).1
    Reachable Sample.certificatePeer Backend.empty Sample.nestedManager s ∧
      ¬ CertificatesIssued Sample.certificatePeer Backend.empty ∅
        Sample.nestedManager.anchorCert.getIdentity s := by
  intro s
  refine ⟨Sample.reachable_run (by decide +kernel), fun h => ?_⟩
  have hheld : (s.tailRecords[Sample.certificateNdn.fullName Sample.nestedPacket]?.map
      fun t => t.record.data) = some (some Sample.nestedPacket) := by
    decide +kernel
  obtain ⟨t, ht, hdata⟩ := Option.map_eq_some_iff.1 hheld
  rcases h.tail _ t ht _ hdata with hcreated | hissued
  · exact hcreated
  · have hproducer := hissued (by decide +kernel)
    revert hproducer
    decide +kernel

end LedgerImpl

end DLedger
