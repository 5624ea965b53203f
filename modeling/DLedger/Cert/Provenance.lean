import DLedger.Cert.CertManager

set_option autoImplicit false

/-! # Where certificates come from

What `verifyRecordFormat` of the default manager promises of a record, and what `acceptRecord`
makes of it. `acceptRecord` checks nothing itself, and the two read the items of the record
apart from each other, so the promise is about what the reading gives.
-/

namespace DLedger

open Tlv (Bytes Block)

open DefaultCertificateManager (getCertificateNameIdentity)

/-! ## Vetted records -/

/-- A record whose format every manager with this anchor accepts. -/
def Vetted (ndn : Ndn) (anchorCert : Certificate) (record : Record) : Prop :=
  ∀ m : DefaultCertificateManager, m.anchorCert = anchorCert →
    m.verifyRecordFormat ndn record = true

variable {ndn : Ndn} {anchorCert : Certificate} {record : Record}

/-- The format depends on the anchor alone. -/
theorem vetted_of_verifyRecordFormat {m : DefaultCertificateManager}
    (hm : m.anchorCert = anchorCert) (h : m.verifyRecordFormat ndn record = true) :
    Vetted ndn anchorCert record := by
  intro m' hm'
  have heq : m'.verifyRecordFormat ndn record = m.verifyRecordFormat ndn record := by
    simp only [DefaultCertificateManager.verifyRecordFormat, hm, hm']
  rw [heq, h]

theorem vetted_of_type (hc : record.type ≠ .certificateRecord)
    (hr : record.type ≠ .revocationRecord) : Vetted ndn anchorCert record := by
  intro m _
  unfold DefaultCertificateManager.verifyRecordFormat
  cases htype : record.type with
  | certificateRecord => exact absurd htype hc
  | revocationRecord => exact absurd htype hr
  | baseRecord => rfl
  | genericRecord => rfl
  | genesisRecord => rfl

/-- The certificates of a vetted record are signed by the anchor. -/
theorem Vetted.signed (h : Vetted ndn anchorCert record) {certRecord : CertificateRecord}
    (hread : CertificateRecord.ofRecord ndn record = .ok certRecord) :
    ∀ cert ∈ certRecord.certList, ndn.verifyData cert anchorCert = true := by
  have htype : record.type = .certificateRecord := by
    by_contra hne
    rw [CertificateRecord.ofRecord, if_pos hne] at hread
    cases hread
  have hformat := h ⟨[], anchorCert, ∅, ∅⟩ rfl
  simp only [DefaultCertificateManager.verifyRecordFormat, htype, hread, Bool.and_eq_true,
    List.all_eq_true] at hformat
  exact hformat.2

/-- The names that a vetted record revokes are those of its producer, unless that is the
anchor. -/
theorem Vetted.allowed (h : Vetted ndn anchorCert record) {revokeRecord : RevocationRecord}
    (hread : RevocationRecord.ofRecord record = .ok revokeRecord) :
    ∀ certName ∈ revokeRecord.revokedCertList, ∃ producer,
      record.getProducerPrefix = .ok producer ∧
        (producer = anchorCert.getIdentity ∨ producer = getCertificateNameIdentity certName) := by
  have htype : record.type = .revocationRecord := by
    by_contra hne
    rw [RevocationRecord.ofRecord, if_pos hne] at hread
    cases hread
  intro certName hname
  have hformat := h ⟨[], anchorCert, ∅, ∅⟩ rfl
  simp only [DefaultCertificateManager.verifyRecordFormat, htype, hread] at hformat
  cases hprod : record.getProducerPrefix with
  | error f => rw [hprod] at hformat; cases hformat
  | ok producer =>
      rw [hprod] at hformat
      refine ⟨producer, rfl, ?_⟩
      have hcheck := List.all_eq_true.1 hformat certName hname
      rw [DefaultCertificateManager.checkRevokedName] at hcheck
      cases hlast : certName.get (-1) with
      | none => rw [hlast] at hcheck; cases hcheck
      | some last =>
          simp only [hlast, Option.map_some, Option.getD_some, Bool.and_eq_true, Bool.or_eq_true,
            beq_iff_eq] at hcheck
          exact hcheck.2.imp Eq.symm Eq.symm

/-! ## Provenance -/

/-- A certificate that a confirmed record carried and that the anchor signed. -/
def CarriedBy (ndn : Ndn) (anchorCert : Certificate) (confirmed : List Record)
    (cert : Certificate) : Prop :=
  ndn.verifyData cert anchorCert = true ∧ ∃ r ∈ confirmed, ∃ certRecord,
    CertificateRecord.ofRecord ndn r = .ok certRecord ∧ cert ∈ certRecord.certList

/-- A name that a confirmed record revoked, of the producer of that record unless the producer
is the anchor. -/
def RevokedBy (anchorCert : Certificate) (confirmed : List Record) (certName : Name) : Prop :=
  ∃ r ∈ confirmed, ∃ revokeRecord producer, RevocationRecord.ofRecord r = .ok revokeRecord ∧
    certName ∈ revokeRecord.revokedCertList ∧ r.getProducerPrefix = .ok producer ∧
      (producer = anchorCert.getIdentity ∨ producer = getCertificateNameIdentity certName)

structure Provenance (ndn : Ndn) (anchorCert : Certificate) (startingPeers : List Certificate)
    (confirmed : List Record) (m : DefaultCertificateManager) : Prop where
  anchor : m.anchorCert = anchorCert
  certificate : ∀ (identity : Name) (certs : List Certificate),
    m.peerCertificates[identity]? = some certs → ∀ cert ∈ certs,
      cert = anchorCert ∨ cert ∈ startingPeers ∨ CarriedBy ndn anchorCert confirmed cert
  revoked : ∀ certName ∈ m.revokedCertificates, RevokedBy anchorCert confirmed certName

namespace Provenance

variable {startingPeers : List Certificate} {confirmed : List Record}
  {m : DefaultCertificateManager}

/-- More confirmations. -/
theorem mono (h : Provenance ndn anchorCert startingPeers confirmed m) {confirmed' : List Record}
    (hsub : confirmed ⊆ confirmed') : Provenance ndn anchorCert startingPeers confirmed' m where
  anchor := h.anchor
  certificate identity certs hcerts cert hcert :=
    (h.certificate identity certs hcerts cert hcert).imp_right fun hor => hor.imp_right
      fun ⟨hsigned, r, hr, hcarried⟩ => ⟨hsigned, r, hsub hr, hcarried⟩
  revoked certName hname := by
    obtain ⟨r, hr, hrevoked⟩ := h.revoked certName hname
    exact ⟨r, hsub hr, hrevoked⟩

theorem pushCertificate (h : Provenance ndn anchorCert startingPeers confirmed m)
    {cert : Certificate} (hcert : cert = anchorCert ∨ cert ∈ startingPeers ∨
      CarriedBy ndn anchorCert confirmed cert) :
    Provenance ndn anchorCert startingPeers confirmed (m.pushCertificate cert) where
  anchor := h.anchor
  certificate identity certs hcerts c hc := by
    simp only [DefaultCertificateManager.pushCertificate, Std.TreeMap.getElem?_insert,
      Std.LawfulEqOrd.compare_eq_iff_eq, Std.TreeMap.getD_eq_getD_getElem?] at hcerts
    by_cases heq : cert.getIdentity = identity
    · rw [if_pos heq, Option.some.injEq] at hcerts
      subst hcerts
      rcases List.mem_append.1 hc with hc | hc
      · cases hknown : m.peerCertificates[cert.getIdentity]? with
        | none => rw [hknown] at hc; cases hc
        | some known =>
            rw [hknown] at hc
            exact h.certificate _ known hknown c hc
      · rw [List.mem_singleton.1 hc]
        exact hcert
    · rw [if_neg heq] at hcerts
      exact h.certificate identity certs hcerts c hc
  revoked := h.revoked

/-- The manager that a peer starts with. -/
theorem construct {now : Int} {peerPrefix : Name}
    (h : DefaultCertificateManager.construct ndn now peerPrefix anchorCert startingPeers
      = .ok m) : Provenance ndn anchorCert startingPeers [] m := by
  have hfold : ∀ (certs : List Certificate) (m : DefaultCertificateManager),
      (∀ cert ∈ certs, cert = anchorCert ∨ cert ∈ startingPeers) →
      Provenance ndn anchorCert startingPeers [] m →
      Provenance ndn anchorCert startingPeers []
        (certs.foldl DefaultCertificateManager.pushCertificate m) := by
    intro certs
    induction certs with
    | nil => exact fun m _ hm => hm
    | cons cert certs ih =>
        intro m hcerts hm
        exact ih _ (fun c hc => hcerts c (List.mem_cons_of_mem _ hc))
          (hm.pushCertificate ((hcerts cert List.mem_cons_self).imp_right Or.inl))
  unfold DefaultCertificateManager.construct at h
  split_ifs at h
  cases h
  refine hfold _ _ (fun cert hcert => List.mem_cons.1 hcert) ⟨rfl, ?_, ?_⟩
  · intro identity certs hcerts
    simp at hcerts
  · intro certName hname
    exact absurd hname (Finset.notMem_empty _)

/-- The loop over the certificates of a record. -/
theorem addCertificates {certs : List Certificate} {m : DefaultCertificateManager}
    (hcerts : ∀ cert ∈ certs, CarriedBy ndn anchorCert confirmed cert)
    (h : Provenance ndn anchorCert startingPeers confirmed m) :
    Provenance ndn anchorCert startingPeers confirmed (certs.foldl (fun m cert =>
      if ndn.fullName cert ∈ m.revokedCertificates then m else m.pushCertificate cert) m) := by
  induction certs generalizing m with
  | nil => exact h
  | cons cert certs ih =>
      have hrest := fun c hc => hcerts c (List.mem_cons_of_mem cert hc)
      rw [List.foldl_cons]
      by_cases hrevoked : ndn.fullName cert ∈ m.revokedCertificates
      · rw [if_pos hrevoked]
        exact ih hrest h
      · rw [if_neg hrevoked]
        exact ih hrest (h.pushCertificate (Or.inr (Or.inr (hcerts cert List.mem_cons_self))))

/-- The loop over the names of a record. -/
theorem revokeNames {names : List Name} {m : DefaultCertificateManager}
    (hnames : ∀ certName ∈ names, RevokedBy anchorCert confirmed certName)
    (h : Provenance ndn anchorCert startingPeers confirmed m) :
    Provenance ndn anchorCert startingPeers confirmed (names.foldl (fun m certName =>
      { m with revokedCertificates := insert certName m.revokedCertificates }) m) := by
  induction names generalizing m with
  | nil => exact h
  | cons certName names ih =>
      rw [List.foldl_cons]
      refine ih (fun n hn => hnames n (List.mem_cons_of_mem certName hn))
        ⟨h.anchor, h.certificate, fun n hn => ?_⟩
      rcases Finset.mem_insert.1 hn with rfl | hn
      · exact hnames n List.mem_cons_self
      · exact h.revoked n hn

/-- **Accepting a vetted record that is confirmed keeps the provenance.** -/
theorem acceptRecord (h : Provenance ndn anchorCert startingPeers confirmed m)
    (hvetted : Vetted ndn anchorCert record) (hmem : record ∈ confirmed) :
    Provenance ndn anchorCert startingPeers confirmed (m.acceptRecord ndn record) := by
  unfold DefaultCertificateManager.acceptRecord
  cases htype : record.type with
  | certificateRecord =>
      cases hread : CertificateRecord.ofRecord ndn record with
      | error e => exact h
      | ok certRecord =>
          exact addCertificates (fun cert hcert => ⟨hvetted.signed hread cert hcert, record, hmem,
            certRecord, hread, hcert⟩) h
  | revocationRecord =>
      cases hread : RevocationRecord.ofRecord record with
      | error e => exact h
      | ok revokeRecord =>
          refine revokeNames (fun certName hname => ?_) h
          obtain ⟨producer, hprod, hallowed⟩ := hvetted.allowed hread certName hname
          exact ⟨record, hmem, revokeRecord, producer, hread, hname, hprod, hallowed⟩
  | baseRecord => exact h
  | genericRecord => exact h
  | genesisRecord => exact h

end Provenance

end DLedger
