import DLedger.Network.Peers

set_option autoImplicit false

/-! # Authentic records

A packet in the name of a peer is authentic when that peer has signed it. The syntax check lets a
packet through when a known certificate of its producer verifies it, so authenticity of the records
rests on the certificates being genuine, and the certificates come with records: the invariant is
about both at once. It is kept however a call ends.
-/

namespace DLedger

open LedgerImpl
open DefaultCertificateManager (carried carried_of_type known_pushCertificate acceptRecord_spec
  verifySignature_ok)

namespace Network

variable {ι : Type} (N : Network ι) (created : ι → List Data)

/-- If a packet is in the name of a peer, then the peer has signed it. -/
def Authentic (d : Data) : Prop :=
  ∀ j, RecordName.getProducerPrefix d.name = (N.config j).peerPrefix → d ∈ created j

/-- A record of an authentic packet whose certificates are genuine. -/
structure SoundRecord (record : Record) : Prop where
  authentic : ∀ d, record.data = some d → N.Authentic created d
  genuine : ∀ cert ∈ carried N.ndn record, N.Genuine cert

/-- What a ledger with sound records has besides its tail and its sync stack. -/
structure SoundLedger (i : ι) (s : LedgerImpl DefaultCertificateManager) : Prop where
  anchor : s.certManager.anchorCert = N.anchorCert i
  known : ∀ identity cert, s.certManager.Known identity cert →
    cert.getIdentity = identity ∧ N.Genuine cert
  stored : ∀ (n : Name) (d : Data), s.backend.getRecord N.ndn n = some d → N.Authentic created d
  inserted : ∀ ins ∈ s.insertions, ∀ d, ins.1.data = some d → N.Authentic created d

/-- A peer all of whose records are sound. -/
abbrev Sound (i : ι) (s : LedgerImpl DefaultCertificateManager) : Prop :=
  Keeps (N.SoundLedger created i) (N.SoundRecord created) (N.SoundRecord created) s

variable {N created} {created' : ι → List Data} {i : ι}
  {s : LedgerImpl DefaultCertificateManager}

/-! ## More packets are signed -/

section Mono

variable (hsub : ∀ j, created j ⊆ created' j)
include hsub

theorem Authentic.mono {d : Data} (h : N.Authentic created d) : N.Authentic created' d :=
  fun j hj => hsub j (h j hj)

theorem SoundRecord.mono {record : Record} (h : N.SoundRecord created record) :
    N.SoundRecord created' record :=
  ⟨fun d hd => (h.authentic d hd).mono hsub, h.genuine⟩

theorem Sound.mono (h : N.Sound created i s) : N.Sound created' i s :=
  ⟨⟨h.holds.anchor, h.holds.known, fun n d hd => (h.holds.stored n d hd).mono hsub,
    fun ins hins d hd => (h.holds.inserted ins hins d hd).mono hsub⟩,
    fun n t ht => (h.tail n t ht).mono hsub, fun it hit => (h.stack it hit).mono hsub⟩

end Mono

/-! ## The start -/

/-- The first manager knows the anchor and the starting certificates, each under its identity. -/
theorem known_construct {now : Int} {peerPrefix : Name} {anchorCert : Certificate}
    {startingPeers : List Certificate} {m : DefaultCertificateManager}
    (h : DefaultCertificateManager.construct N.ndn now peerPrefix anchorCert startingPeers = .ok m) :
    m.anchorCert = anchorCert ∧ ∀ identity cert, m.Known identity cert →
      cert.getIdentity = identity ∧ (cert = anchorCert ∨ cert ∈ startingPeers) := by
  have hfold : ∀ (certs : List Certificate) (m : DefaultCertificateManager),
      (certs.foldl DefaultCertificateManager.pushCertificate m).anchorCert = m.anchorCert ∧
        ∀ identity cert,
          (certs.foldl DefaultCertificateManager.pushCertificate m).Known identity cert →
          m.Known identity cert ∨ (cert.getIdentity = identity ∧ cert ∈ certs) := by
    intro certs
    induction certs with
    | nil => exact fun m => ⟨rfl, fun identity cert h => Or.inl h⟩
    | cons c certs ih =>
        intro m
        obtain ⟨hanchor, hknown⟩ := ih (m.pushCertificate c)
        refine ⟨hanchor, fun identity cert h => ?_⟩
        rcases hknown identity cert h with h | ⟨hid, hmem⟩
        · rcases known_pushCertificate.1 h with h | ⟨rfl, hid⟩
          · exact Or.inl h
          · exact Or.inr ⟨hid, List.mem_cons_self⟩
        · exact Or.inr ⟨hid, List.mem_cons_of_mem c hmem⟩
  unfold DefaultCertificateManager.construct at h
  split_ifs at h
  cases h
  obtain ⟨hanchor, hknown⟩ := hfold (anchorCert :: startingPeers) ⟨peerPrefix, anchorCert, ∅, ∅⟩
  refine ⟨hanchor, fun identity cert h => ?_⟩
  rcases hknown identity cert h with ⟨certs, hcerts, _⟩ | ⟨hid, hmem⟩
  · simp at hcerts
  · exact ⟨hid, List.mem_cons.1 hmem⟩

/-- A genesis record is in the name of no peer. -/
theorem soundRecord_genesis (hN : N.PublicKeys) {k : Nat} {record : Record}
    (h : genesisData (N.peer i) k = .ok record) : N.SoundRecord created record := by
  obtain ⟨htype, _⟩ := genesisData_ok h
  obtain ⟨hne, halpha⟩ := toString_alphanumeric k
  have hid := N.ndn.ofUri_alphanumeric _ hne halpha
  refine ⟨fun d hd j hj => ?_, ?_⟩
  · unfold genesisData at h
    simp only at h
    cases hcontent : (genesisRecord (toString k)).wireEncode with
    | error e => rw [hcontent] at h; cases h
    | ok content =>
        rw [hcontent] at h
        cases h
        cases hd
        have hgenesis : RecordName.getProducerPrefix
            (RecordName.build N.ndn genesisPrefix .genesisRecord (toString k) 0) = genesisPrefix :=
          getProducerPrefix_build hid 0
        exact absurd (hj.symm.trans hgenesis) (hN.peerPrefix_ne_genesis j)
  · rw [carried_of_type N.ndn (by rw [htype]; decide)]
    exact fun cert hcert => absurd hcert List.not_mem_nil

/-! ## What a ledger keeps -/

/-- The manager accepts genuine certificates only, and what is stored was confirmed. -/
theorem soundLedger_frame : CallFrame (N.peer i) (N.SoundLedger created i)
    (N.SoundRecord created) (N.SoundRecord created) where
  withTail _ _ h := ⟨h.anchor, h.known, h.stored, h.inserted⟩
  withStack _ _ h := ⟨h.anchor, h.known, h.stored, h.inserted⟩
  quiet s e he h := by
    refine ⟨h.anchor, h.known, h.stored, ?_⟩
    rw [emit_insertions, he.1]
    exact h.inserted
  confirm amb record s hr h := by
    have hinserted : (onRecordConfirmed (N.peer i) amb record s).1.insertions = s.insertions :=
      onRecordConfirmed_insertions (N.peer i) amb record s
    have hstored : ∀ (n : Name) (d : Data),
        (onRecordConfirmed (N.peer i) amb record s).1.backend.getRecord N.ndn n = some d →
        N.Authentic created d := by
      intro n d hd
      rcases onRecordConfirmed_getRecord (N.peer i) amb hd with hd | ⟨hdata, _⟩
      · exact h.stored n d hd
      · exact hr.authentic d hdata
    rcases onRecordConfirmed_certManager_cases (N.peer i) amb record s with hsame | haccept
    · exact ⟨hsame ▸ h.anchor, hsame ▸ h.known, hstored, hinserted ▸ h.inserted⟩
    · obtain ⟨_, hanchor, _, hknown⟩ := acceptRecord_spec N.ndn s.certManager record
      refine ⟨?_, fun identity cert hcert => ?_, hstored, hinserted ▸ h.inserted⟩
      · rw [haccept]
        exact hanchor.trans h.anchor
      · rw [haccept] at hcert
        rcases (hknown identity cert).1 hcert with hold | ⟨hmem, hid, _⟩
        · exact h.known identity cert hold
        · exact ⟨hid, hr.genuine cert hmem⟩
  blank := by
    refine ⟨fun d hd => ?_, ?_⟩
    · cases hd
    · rw [carried_of_type N.ndn (by decide)]
      exact fun cert hcert => absurd hcert List.not_mem_nil
  waiting _ h := h
  insert s record endorseVerified hr h := by
    refine ⟨h.anchor, h.known, h.stored, fun ins hins => ?_⟩
    rcases List.mem_cons.1 hins with rfl | hins
    · exact hr.authentic
    · exact h.inserted ins hins

/-- **A packet that passes the syntax check is authentic**, and the certificates in it are signed by
the anchor. -/
theorem soundRecord_of_checked (hN : N.PublicKeys) {amb : Ambient} {data : Data} {record : Record}
    (hunforged : ∀ cert j, N.owner cert = some j → N.ndn.verifyData data cert = true →
      data ∈ created j)
    (h : N.Sound created i s) (hdec : Record.ofData N.ndn data = .ok record)
    (hcheck : checkSyntaxValidityOfRecord (N.peer i) amb data s = .ok true) :
    N.SoundRecord created record := by
  obtain ⟨hname, hdata, _⟩ := Record.ofData_eq_ok hdec
  obtain ⟨_, _, hsigned, _, hformat⟩ :=
    checkSyntaxOfRecord_ok (checkSyntaxValidityOfRecord_ok hdec hcheck)
  refine ⟨fun d hd j hj => ?_, ?_⟩
  · rw [hdata] at hd
    cases hd
    obtain ⟨_, hverify, hiff⟩ :=
      verifySignature_ok N.ndn (m := s.certManager) (RecordName.ofName_of_check hname)
    have htrue := hsigned.symm.trans hverify
    cases htrue
    obtain ⟨cert, hknown, hverified⟩ := hiff.1 rfl
    obtain ⟨hid, hgenuine⟩ := h.holds.known _ cert hknown
    exact hunforged cert j (hgenuine j (hid.trans hj)) hverified
  · by_cases htype : record.type = .certificateRecord
    · intro cert hcert
      have hgood : s.certManager.verifyRecordFormat N.ndn record = true :=
        Except.ok.inj (hformat (Or.inl htype))
      cases hread : CertificateRecord.ofRecord N.ndn record with
      | error e =>
          rw [DefaultCertificateManager.carried, hread] at hcert
          exact absurd hcert List.not_mem_nil
      | ok certRecord =>
          rw [DefaultCertificateManager.carried, hread] at hcert
          simp only [DefaultCertificateManager.verifyRecordFormat, htype, hread, Bool.and_eq_true,
            List.all_eq_true] at hgood
          exact hN.signed i cert (h.holds.anchor ▸ hgood.2 cert hcert)
    · rw [carried_of_type N.ndn htype]
      exact fun cert hcert => absurd hcert List.not_mem_nil

/-- The packet that a peer signs is in its own name. -/
theorem authentic_built (hN : N.PublicKeys) {amb : Ambient} {record record' : Record} {data : Data}
    (hfresh : record.Fresh N.ndn)
    (hbuild : buildRecord (N.peer i) amb record s = (record', .ok (.ok data)))
    (hmem : data ∈ created i) : N.Authentic created data := by
  intro j hj
  obtain ⟨items, hpointers, _, hname, _⟩ := buildRecord_ok hbuild
  obtain ⟨pointers, rfl, _⟩ := addPointers_ok hpointers
  have htype : record.type ≠ .genesisRecord := by
    intro heq
    have := hfresh.type_mem
    rw [heq] at this
    simp at this
  rw [generateRecordName, if_neg htype] at hname
  rw [hname] at hj
  have hown := hj.symm.trans (getProducerPrefix_build hfresh.identifier amb.now)
  rw [hN.peerPrefix_injective hown]
  exact hmem

end Network

end DLedger
