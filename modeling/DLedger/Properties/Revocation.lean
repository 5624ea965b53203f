import DLedger.Cert.Accept
import DLedger.Ledger.Keep
import DLedger.Ledger.Sample

set_option autoImplicit false

/-! # Revocation

Whether the certificate store depends on the order in which records are confirmed, and whether
a peer whose certificates are revoked can still append.
-/

namespace DLedger

open Tlv (Bytes Block)

namespace DefaultCertificateManager

variable (ndn : Ndn)

/-! ## The order of certificate and revocation records -/

/-- Two managers that answer alike on every packet. -/
def SameAnswers (m m' : DefaultCertificateManager) : Prop :=
  (∀ data, m.verifySignature ndn data = m'.verifySignature ndn data) ∧
    (∀ data, m.endorseSignature ndn data = m'.endorseSignature ndn data) ∧
    ∀ interest, m.verifyInterest ndn interest = m'.verifyInterest ndn interest

/-- Every packet of its identity that a certificate verifies is verified by one that is known
at the start or that these records carry ahead of its revocations. -/
def Redundant (m : DefaultCertificateManager) (records : List Record) (cert : Certificate) :
    Prop :=
  ∀ (data : Data) (name : RecordName), RecordName.ofName data.name = .ok name →
    RecordName.getProducerPrefix data.name = cert.getIdentity →
    ndn.verifyData data cert = true → ∃ other, ndn.verifyData data other = true ∧
      (m.Known cert.getIdentity other ∨
        (other.getIdentity = cert.getIdentity ∧ CarriedFirst ndn m records other))

variable {ndn} {m : DefaultCertificateManager} {records records' : List Record}

/-- Which names are revoked in the end does not depend on the order. -/
theorem mem_revoked_of_perm (hperm : records.Perm records') {n : Name} :
    n ∈ (acceptAll ndn m records).revokedCertificates ↔
      n ∈ (acceptAll ndn m records').revokedCertificates := by
  rw [mem_revoked_acceptAll, mem_revoked_acceptAll]
  simp only [hperm.mem_iff]

/-- Neither does which unrevoked certificates are known. -/
theorem known_unrevoked_of_perm (hperm : records.Perm records') {identity : Name}
    {cert : Certificate}
    (h : ndn.fullName cert ∉ (acceptAll ndn m records).revokedCertificates) :
    (acceptAll ndn m records).Known identity cert ↔
      (acceptAll ndn m records').Known identity cert := by
  have h' := mt (mem_revoked_of_perm hperm).2 h
  rw [known_acceptAll, known_acceptAll, carriedFirst_of_unrevoked ndn h,
    carriedFirst_of_unrevoked ndn h']
  simp only [hperm.mem_iff]

/-- So a query that passes over revoked certificates finds the same. -/
theorem exists_unrevoked_of_perm (hperm : records.Perm records') {identity : Name}
    {good : Certificate → Prop}
    (h : ∃ cert, (acceptAll ndn m records).Known identity cert ∧
      ndn.fullName cert ∉ (acceptAll ndn m records).revokedCertificates ∧ good cert) :
    ∃ cert, (acceptAll ndn m records').Known identity cert ∧
      ndn.fullName cert ∉ (acceptAll ndn m records').revokedCertificates ∧ good cert := by
  obtain ⟨cert, hknown, hfree, hgood⟩ := h
  exact ⟨cert, (known_unrevoked_of_perm hperm hfree).1 hknown,
    mt (mem_revoked_of_perm hperm).2 hfree, hgood⟩

/-- **What is endorsed does not depend on the order.** -/
theorem endorseSignature_of_perm (hperm : records.Perm records') (data : Data) :
    (acceptAll ndn m records).endorseSignature ndn data
      = (acceptAll ndn m records').endorseSignature ndn data := by
  cases hname : RecordName.ofName data.name with
  | error e => rw [endorseSignature_error ndn hname, endorseSignature_error ndn hname]
  | ok name =>
      obtain ⟨b, hb, hiff⟩ := endorseSignature_ok ndn (m := acceptAll ndn m records) hname
      obtain ⟨b', hb', hiff'⟩ := endorseSignature_ok ndn (m := acceptAll ndn m records') hname
      have heq : b = b' := by
        rw [Bool.eq_iff_iff, hiff, hiff']
        exact ⟨exists_unrevoked_of_perm hperm, exists_unrevoked_of_perm hperm.symm⟩
      rw [hb, hb', heq]

theorem verifyInterest_of_perm (hperm : records.Perm records') (interest : Interest) :
    (acceptAll ndn m records).verifyInterest ndn interest
      = (acceptAll ndn m records').verifyInterest ndn interest := by
  cases hkey : ndn.interestKeyName interest with
  | none => simp only [verifyInterest, hkey]
  | some keyName =>
      obtain ⟨b, hb, hiff⟩ := verifyInterest_ok ndn (m := acceptAll ndn m records) hkey
      obtain ⟨b', hb', hiff'⟩ := verifyInterest_ok ndn (m := acceptAll ndn m records') hkey
      have heq : b = b' := by
        rw [Bool.eq_iff_iff, hiff, hiff']
        exact ⟨exists_unrevoked_of_perm hperm, exists_unrevoked_of_perm hperm.symm⟩
      rw [hb, hb', heq]

/-- A packet that is verified in one order is verified in the other, when what only the first
one adds is redundant in the second. -/
theorem verified_of_redundant {data : Data} {name : RecordName}
    (hname : RecordName.ofName data.name = .ok name)
    (h : ∀ cert, CarriedFirst ndn m records cert → Redundant ndn m records' cert)
    (hverified : ∃ cert,
      (acceptAll ndn m records).Known (RecordName.getProducerPrefix data.name) cert ∧
        ndn.verifyData data cert = true) :
    ∃ cert, (acceptAll ndn m records').Known (RecordName.getProducerPrefix data.name) cert ∧
      ndn.verifyData data cert = true := by
  obtain ⟨cert, hknown, hgood⟩ := hverified
  rcases known_acceptAll ndn |>.1 hknown with hknown | ⟨hid, hcarried⟩
  · exact ⟨cert, (known_acceptAll ndn).2 (Or.inl hknown), hgood⟩
  · obtain ⟨other, hother, hsource⟩ := h cert hcarried data name hname hid.symm hgood
    rw [hid] at hsource
    exact ⟨other, (known_acceptAll ndn).2 hsource, hother⟩

/-- What one order adds is redundant in the other, when the two verify the same packets. -/
theorem redundant_of_verified
    (h : ∀ data, (acceptAll ndn m records).verifySignature ndn data
      = (acceptAll ndn m records').verifySignature ndn data) {cert : Certificate}
    (hcarried : CarriedFirst ndn m records cert) : Redundant ndn m records' cert := by
  intro data name hname hid hgood
  obtain ⟨b, hb, hiff⟩ := verifySignature_ok ndn (m := acceptAll ndn m records) hname
  obtain ⟨b', hb', hiff'⟩ := verifySignature_ok ndn (m := acceptAll ndn m records') hname
  have hverified : b = true :=
    hiff.2 ⟨cert, (known_acceptAll ndn).2 (Or.inr ⟨hid.symm, hcarried⟩), hgood⟩
  have heq : b = b' := Except.ok.inj (hb.symm.trans ((h data).trans hb'))
  obtain ⟨other, hknown, hother⟩ := hiff'.1 (heq ▸ hverified)
  rw [hid] at hknown
  exact ⟨other, hother, (known_acceptAll ndn).1 hknown⟩

/-- **Two orders of the same records lead to the same answers exactly if each certificate that
is carried ahead of its revocations in one order is redundant in the other.** -/
theorem acceptRecord_order (hperm : records.Perm records') :
    SameAnswers ndn (acceptAll ndn m records) (acceptAll ndn m records') ↔
      (∀ cert, CarriedFirst ndn m records cert → Redundant ndn m records' cert) ∧
        ∀ cert, CarriedFirst ndn m records' cert → Redundant ndn m records cert := by
  constructor
  · rintro ⟨hverify, _, _⟩
    exact ⟨fun cert => redundant_of_verified hverify,
      fun cert => redundant_of_verified fun data => (hverify data).symm⟩
  · rintro ⟨h, h'⟩
    refine ⟨fun data => ?_, endorseSignature_of_perm hperm, verifyInterest_of_perm hperm⟩
    cases hname : RecordName.ofName data.name with
    | error e => rw [verifySignature_error ndn hname, verifySignature_error ndn hname]
    | ok name =>
        obtain ⟨b, hb, hiff⟩ := verifySignature_ok ndn (m := acceptAll ndn m records) hname
        obtain ⟨b', hb', hiff'⟩ := verifySignature_ok ndn (m := acceptAll ndn m records') hname
        have heq : b = b' := by
          rw [Bool.eq_iff_iff, hiff, hiff']
          exact ⟨verified_of_redundant hname h, verified_of_redundant hname h'⟩
        rw [hb, hb', heq]

theorem acceptRecord_order_revokedRecords :
    SameAnswers Sample.certificateNdn
        (acceptAll Sample.certificateNdn Sample.certificateManager Sample.revokedRecords)
        (acceptAll Sample.certificateNdn Sample.certificateManager Sample.revokedRecords.reverse) ↔
      (∀ cert, CarriedFirst Sample.certificateNdn Sample.certificateManager Sample.revokedRecords
          cert → Redundant Sample.certificateNdn Sample.certificateManager
            Sample.revokedRecords.reverse cert) ∧
        ∀ cert, CarriedFirst Sample.certificateNdn Sample.certificateManager
          Sample.revokedRecords.reverse cert → Redundant Sample.certificateNdn
            Sample.certificateManager Sample.revokedRecords cert :=
  acceptRecord_order (List.reverse_perm _).symm

/-- **A revocation that is accepted ahead of the certificate it revokes keeps it out**, so that
its packets are not verified any more. -/
theorem not_acceptRecord_order_revokedRecords :
    ¬ ∀ (ndn : Ndn) (m : DefaultCertificateManager) (records records' : List Record),
      (∀ r ∈ records, r.type = .certificateRecord ∨ r.type = .revocationRecord) →
      records.Perm records' →
        SameAnswers ndn (acceptAll ndn m records) (acceptAll ndn m records') := by
  intro h
  have hsame := (h Sample.certificateNdn Sample.certificateManager Sample.revokedRecords
    Sample.revokedRecords.reverse (by decide +kernel) (List.reverse_perm _).symm).1
      (Sample.packet 99 0 [])
  have hfirst : (acceptAll Sample.certificateNdn Sample.certificateManager
      Sample.revokedRecords).verifySignature Sample.certificateNdn (Sample.packet 99 0 [])
        = .ok true := by
    decide +kernel
  have hlast : (acceptAll Sample.certificateNdn Sample.certificateManager
      Sample.revokedRecords.reverse).verifySignature Sample.certificateNdn (Sample.packet 99 0 [])
        = .ok false := by
    decide +kernel
  rw [hfirst, hlast] at hsame
  cases hsame

end DefaultCertificateManager

/-! ## Revoked peers -/

namespace LedgerImpl

variable {P : Peer DefaultCertificateManager} {amb : Ambient}
  {s : LedgerImpl DefaultCertificateManager}

/-- The certificates of the peer itself. -/
def OwnCertificate (m : DefaultCertificateManager) (cert : Certificate) : Prop :=
  m.Known m.peerPrefix cert

/-- When all certificates of the peer are revoked it cannot append; and whatever it appends, one
of its certificates is such that its signatures over the new packet are endorsed. -/
structure RespectsRevocation (P : Peer DefaultCertificateManager)
    (s : LedgerImpl DefaultCertificateManager) : Prop where
  refused : (∀ cert, OwnCertificate s.certManager cert →
      P.ndn.fullName cert ∈ s.certManager.revokedCertificates) →
    s.certManager.authorizedToGenerate = false ∧
      ∀ amb record, ∃ code, createRecord P amb record s = (s, record, .ok code) ∧
        code.success = false
  endorsable : ∀ amb record r data, record.Fresh P.ndn →
    (createRecord P amb record s).1.insertions = (r, true) :: s.insertions →
    r.data = some data → RecordName.check data.name = .ok () →
    ∃ cert, OwnCertificate s.certManager cert ∧ ∀ signature,
      P.ndn.verifyData { data with signature } cert = true →
        s.certManager.endorseSignature P.ndn { data with signature } = .ok true

/-- The manager asks for a certificate only. -/
theorem authorizedToGenerate_iff (m : DefaultCertificateManager) :
    m.authorizedToGenerate = true ↔ ∃ cert, OwnCertificate m cert := by
  unfold DefaultCertificateManager.authorizedToGenerate OwnCertificate
    DefaultCertificateManager.Known
  cases m.peerCertificates[m.peerPrefix]? with
  | none => simp
  | some certs => cases certs <;> simp

variable (amb) in
/-- A peer that is not authorized gets an error and changes nothing. -/
theorem createRecord_unauthorized
    (h : P.certManager.authorizedToGenerate s.certManager = false) (record : Record) :
    ∃ code, createRecord P amb record s = (s, record, .ok code) ∧ code.success = false := by
  unfold createRecord buildRecord
  by_cases hempty : s.tailRecords.isEmpty = true
  · exact ⟨.noTailingRecord, by simp only [if_pos hempty], rfl⟩
  · exact ⟨.signingError "No Valid Certificate", by simp only [if_neg hempty, h, Bool.not_false,
      if_true], rfl⟩

/-- What `createRecord` inserts is the record that it has built, under the peer's own name. -/
theorem createRecord_inserted {record r : Record} {data : Data} (hfresh : record.Fresh P.ndn)
    (h : (createRecord P amb record s).1.insertions = (r, true) :: s.insertions)
    (hdata : r.data = some data) : P.certManager.authorizedToGenerate s.certManager = true ∧
      RecordName.getProducerPrefix data.name = P.config.peerPrefix := by
  have hgrown : ∀ s' : LedgerImpl DefaultCertificateManager, s'.insertions = s.insertions →
      s'.insertions ≠ (r, true) :: s.insertions := by
    intro s' heq hcons
    have hlen := congrArg List.length (heq.symm.trans hcons)
    rw [List.length_cons] at hlen
    omega
  have hauth : P.certManager.authorizedToGenerate s.certManager = true := by
    by_contra hno
    obtain ⟨code, hrun, _⟩ := createRecord_unauthorized amb (Bool.eq_false_iff.2 hno) record
    rw [hrun] at h
    exact hgrown s rfl h
  refine ⟨hauth, ?_⟩
  have hsend : ∀ s' : LedgerImpl DefaultCertificateManager,
      (sendSyncInterest amb s').1.insertions = s'.insertions := by
    intro s'
    unfold sendSyncInterest
    cases amb.signInterest <;> rfl
  unfold createRecord at h
  rcases hbuild : buildRecord P amb record s with ⟨record', f | code | built⟩
  · rw [hbuild] at h
    exact absurd h (hgrown s rfl)
  · rw [hbuild] at h
    exact absurd h (hgrown s rfl)
  rw [hbuild] at h
  -- the log is that of `addToTailingRecord`
  have hlog : (addToTailingRecord P amb { record' with data := some built } true s).1.insertions
      = (r, true) :: s.insertions := by
    rw [← h]
    rcases hadd : addToTailingRecord P amb { record' with data := some built } true s
      with ⟨s₁, f | ⟨⟨⟩⟩⟩
    · simp only [hadd]
    · simp only [hadd]
      have hsame := hsend s₁
      rcases hsync : sendSyncInterest amb s₁ with ⟨s₂, _ | _ | _ | _⟩ <;>
        · rw [hsync] at hsame
          exact hsame.symm
  have hr : r = { record' with data := some built } := by
    rcases addToTailingRecord_insertions P amb { record' with data := some built }
      true s with hsame | hcons
    · exact absurd hlog (hgrown _ hsame)
    · have hcons' := hlog.symm.trans hcons
      simp only [List.cons.injEq, Prod.mk.injEq, and_true] at hcons'
      exact hcons'
  subst hr
  cases hdata
  obtain ⟨items, hpointers, _, hname, _⟩ := buildRecord_ok hbuild
  obtain ⟨pointers, rfl, _⟩ := addPointers_ok hpointers
  have htype : record.type ≠ .genesisRecord := by
    intro heq
    have hmem := hfresh.type_mem
    rw [heq] at hmem
    simp at hmem
  rw [hname, generateRecordName, if_neg htype]
  exact getProducerPrefix_build hfresh.identifier _

/-- The manager keeps the prefix of its peer. -/
theorem RunsTo.peerPrefix (hP : P.certManager = DefaultCertificateManager.manager P.ndn)
    {db : Backend} {m : DefaultCertificateManager}
    {allowed : LedgerImpl DefaultCertificateManager → Call → Prop}
    (h : RunsTo P db m allowed s) : s.certManager.peerPrefix = m.peerPrefix := by
  have hframe : CallFrame P (fun s => s.certManager.peerPrefix = m.peerPrefix)
      (fun _ => True) (fun _ => True) := by
    refine ⟨⟨⟨fun _ _ h => h, fun _ _ h => h, ?_, trivial, fun _ _ => trivial⟩,
      fun _ _ _ _ h => h⟩, fun _ _ _ h => h⟩
    intro amb record s _ hs
    rcases onRecordConfirmed_certManager_cases P amb record s with hsame | haccept
    · rw [hsame, hs]
    · rw [haccept, hP]
      exact (DefaultCertificateManager.acceptRecord_spec P.ndn s.certManager record).1.trans hs
  refine (h.keeps hframe rfl (fun _ _ _ => trivial) fun s c _ _ => ?_).holds
  cases c with
  | createRecord amb record => exact fun _ _ _ => trivial
  | onFetchedRecord amb data => exact fun _ _ _ _ => trivial
  | _ => trivial

/-- **Revocation keeps a peer from appending exactly as long as the peer holds no certificate,
or one that is not revoked.** -/
theorem respectsRevocation_iff (hP : P.certManager = DefaultCertificateManager.manager P.ndn)
    {db : Backend} {m : DefaultCertificateManager} (hpre : m.peerPrefix = P.config.peerPrefix)
    (h : RunsTo P db m (fun _ _ => True) s) :
    RespectsRevocation P s ↔
      (¬ ∃ cert, OwnCertificate s.certManager cert) ∨
        ∃ cert, OwnCertificate s.certManager cert ∧
          P.ndn.fullName cert ∉ s.certManager.revokedCertificates := by
  -- a peer all of whose certificates are revoked is still authorized to generate
  constructor
  · intro hs
    by_contra hcon
    rw [not_or, not_not] at hcon
    obtain ⟨hheld, hnone⟩ := hcon
    have hrevoked : ∀ cert, OwnCertificate s.certManager cert →
        P.ndn.fullName cert ∈ s.certManager.revokedCertificates := by
      intro cert hcert
      by_contra hfree
      exact hnone ⟨cert, hcert, hfree⟩
    have hauth := (hs.refused hrevoked).1
    rw [(authorizedToGenerate_iff s.certManager).2 hheld] at hauth
    cases hauth
  · intro hcond
    refine ⟨fun hrevoked => ?_, fun amb record r data hfresh hlog hdata hcheck => ?_⟩
    · have hno : s.certManager.authorizedToGenerate = false := by
        rw [Bool.eq_false_iff, ne_eq, authorizedToGenerate_iff]
        rcases hcond with hnone | ⟨cert, hcert, hfree⟩
        · exact hnone
        · exact absurd (hrevoked cert hcert) hfree
      refine ⟨hno, fun amb record => createRecord_unauthorized amb ?_ record⟩
      rw [hP]
      exact hno
    · obtain ⟨hauth, hproducer⟩ := createRecord_inserted hfresh hlog hdata
      rw [hP] at hauth
      have hheld := (authorizedToGenerate_iff s.certManager).1 hauth
      obtain ⟨cert, hcert, hfree⟩ := hcond.resolve_left (not_not_intro hheld)
      refine ⟨cert, hcert, fun signature hsigned => ?_⟩
      have hname : RecordName.ofName ({ data with signature } : Data).name
          = .ok ⟨data.name, hcheck⟩ :=
        RecordName.ofName_of_check hcheck
      obtain ⟨b, hb, hiff⟩ := DefaultCertificateManager.endorseSignature_ok P.ndn
        (m := s.certManager) hname
      -- the certificate of the peer is known under the producer of its records
      have hknown : s.certManager.Known (RecordName.getProducerPrefix data.name) cert := by
        rw [hproducer, ← hpre, ← h.peerPrefix hP]
        exact hcert
      rw [hb, hiff.2 ⟨cert, hknown, hfree, hsigned⟩]

/-- A second certificate of the peer. -/
def renewedCertificate : Certificate :=
  { Sample.certificate 112 with
    name := [.generic [112], Certificate.keyComponent, .generic [2], .generic [1], .generic [1]] }

/-- One of the peer's two certificates has been revoked. -/
theorem respectsRevocation_renewed :
    let s := (Sample.run Sample.certificatePeer
      (Sample.ownManager.pushCertificate renewedCertificate) Sample.revokingPackets).1
    (OwnCertificate s.certManager (Sample.certificate 112) ∧
      Sample.certificateNdn.fullName (Sample.certificate 112)
        ∈ s.certManager.revokedCertificates) ∧
      RespectsRevocation Sample.certificatePeer s := by
  intro s
  have hheld : s.certManager.peerCertificates[s.certManager.peerPrefix]?
      = some [Sample.certificate 112, renewedCertificate] := by
    decide +kernel
  have hrun : RunsTo Sample.certificatePeer Backend.empty
      (Sample.ownManager.pushCertificate renewedCertificate) (fun _ _ => True) s :=
    Sample.runsTo_run (fun _ _ _ => trivial) (by decide +kernel)
  refine ⟨⟨⟨_, hheld, by simp⟩, by decide +kernel⟩, ?_⟩
  exact (respectsRevocation_iff (P := Sample.certificatePeer) rfl rfl hrun).2
    (Or.inr ⟨renewedCertificate, ⟨_, hheld, by simp⟩, by decide +kernel⟩)

/-- **A peer whose only certificate is revoked appends a record.** -/
theorem not_respectsRevocation_revokingPackets :
    let s := (Sample.run Sample.certificatePeer Sample.ownManager Sample.revokingPackets).1
    RunsTo Sample.certificatePeer Backend.empty Sample.ownManager (fun _ _ => True) s ∧
      (createRecord Sample.certificatePeer Sample.ambient
        { type := .genericRecord, uniqueIdentifier := [120] } s).2.2.toOption.any
          ReturnCode.success = true ∧
      ¬ RespectsRevocation Sample.certificatePeer s := by
  intro s
  refine ⟨Sample.runsTo_run (fun _ _ _ => trivial) (by decide +kernel), by decide +kernel,
    fun h => ?_⟩
  have hheld : s.certManager.peerCertificates[s.certManager.peerPrefix]?
      = some [Sample.certificate 112] := by
    decide +kernel
  have hrevoked : Sample.certificateNdn.fullName (Sample.certificate 112)
      ∈ s.certManager.revokedCertificates := by
    decide +kernel
  have hauth : s.certManager.authorizedToGenerate = true := by decide +kernel
  have hrefused := (h.refused fun cert hcert => by
    obtain ⟨certs, hcerts, hmem⟩ := hcert
    rw [hheld] at hcerts
    cases hcerts
    rw [List.mem_singleton.1 hmem]
    exact hrevoked).1
  rw [hauth] at hrefused
  cases hrefused

end LedgerImpl

end DLedger
