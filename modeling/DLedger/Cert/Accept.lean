import DLedger.Cert.CertManager

set_option autoImplicit false

/-! # What accepting records does to the certificate store

The answers of the default manager depend on which certificates it knows for an identity and
on which full names are revoked. `known_acceptAll` and `mem_revoked_acceptAll` say what both
are after a list of records.
-/

namespace DLedger

namespace DefaultCertificateManager

variable (ndn : Ndn)

/-! ## Known certificates -/

/-- A certificate that the manager holds for an identity. -/
def Known (m : DefaultCertificateManager) (identity : Name) (cert : Certificate) : Prop :=
  ∃ certs, m.peerCertificates[identity]? = some certs ∧ cert ∈ certs

/-- Adding a certificate makes it known for its identity. -/
theorem known_pushCertificate {m : DefaultCertificateManager} {cert c : Certificate}
    {identity : Name} : (m.pushCertificate cert).Known identity c ↔
      m.Known identity c ∨ (c = cert ∧ cert.getIdentity = identity) := by
  simp only [Known, pushCertificate, Std.TreeMap.getElem?_insert,
    Std.LawfulEqOrd.compare_eq_iff_eq, Std.TreeMap.getD_eq_getD_getElem?]
  by_cases hid : cert.getIdentity = identity
  · subst hid
    simp only [if_true, Option.some.injEq, exists_eq_left', List.mem_append,
      List.mem_singleton, and_true]
    cases m.peerCertificates[cert.getIdentity]? <;> simp
  · simp only [hid, if_false, and_false, or_false]

/-- A query that looks for a good certificate of an identity. -/
theorem any_known {m : DefaultCertificateManager} {identity : Name} (good : Certificate → Bool) :
    ((m.peerCertificates[identity]?).any fun certs => certs.any good) = true ↔
      ∃ cert, m.Known identity cert ∧ good cert = true := by
  unfold Known
  cases m.peerCertificates[identity]? with
  | none => simp
  | some certs => simp

/-- A query that passes over revoked certificates. -/
theorem any_unrevoked {m : DefaultCertificateManager} {identity : Name}
    (good : Certificate → Bool) :
    ((m.peerCertificates[identity]?).any fun certs => certs.any fun cert =>
        decide (ndn.fullName cert ∉ m.revokedCertificates) && good cert) = true ↔
      ∃ cert, m.Known identity cert ∧ ndn.fullName cert ∉ m.revokedCertificates ∧
        good cert = true := by
  rw [any_known fun cert => decide (ndn.fullName cert ∉ m.revokedCertificates) && good cert]
  simp only [Bool.and_eq_true, decide_eq_true_eq]

/-! ## The three answers -/

theorem verifySignature_error {m : DefaultCertificateManager} {data : Data} {e : Exn}
    (h : RecordName.ofName data.name = .error e) : m.verifySignature ndn data = .error e := by
  simp only [verifySignature, h, bind, Except.bind]

theorem endorseSignature_error {m : DefaultCertificateManager} {data : Data} {e : Exn}
    (h : RecordName.ofName data.name = .error e) : m.endorseSignature ndn data = .error e := by
  simp only [endorseSignature, h, bind, Except.bind]

section Named

variable {m : DefaultCertificateManager} {data : Data} {name : RecordName}
  (h : RecordName.ofName data.name = .ok name)
include h

/-- A packet is verified by some known certificate of its producer. -/
theorem verifySignature_ok :
    ∃ b, m.verifySignature ndn data = .ok b ∧
      (b = true ↔ ∃ cert, m.Known (RecordName.getProducerPrefix data.name) cert ∧
        ndn.verifyData data cert = true) := by
  rw [← RecordName.ofName_eq_ok.1 h]
  refine ⟨_, ?_, any_known fun cert => ndn.verifyData data cert⟩
  simp only [verifySignature, h, bind, Except.bind, pure, Except.pure]
  cases m.peerCertificates[RecordName.getProducerPrefix name.name]? <;> rfl

/-- It is endorsed by one that is not revoked. -/
theorem endorseSignature_ok :
    ∃ b, m.endorseSignature ndn data = .ok b ∧
      (b = true ↔ ∃ cert, m.Known (RecordName.getProducerPrefix data.name) cert ∧
        ndn.fullName cert ∉ m.revokedCertificates ∧ ndn.verifyData data cert = true) := by
  rw [← RecordName.ofName_eq_ok.1 h]
  refine ⟨_, ?_, any_unrevoked ndn fun cert => ndn.verifyData data cert⟩
  simp only [endorseSignature, h, bind, Except.bind, pure, Except.pure]
  cases m.peerCertificates[RecordName.getProducerPrefix name.name]? <;> rfl

end Named

theorem verifyInterest_ok {m : DefaultCertificateManager} {interest : Interest} {keyName : Name}
    (h : ndn.interestKeyName interest = some keyName) :
    ∃ b, m.verifyInterest ndn interest = .ok b ∧
      (b = true ↔ ∃ cert, m.Known (keyName.getPrefix (-2)) cert ∧
        ndn.fullName cert ∉ m.revokedCertificates ∧
          ndn.verifyInterest interest cert = true) := by
  refine ⟨_, ?_, any_unrevoked ndn fun cert => ndn.verifyInterest interest cert⟩
  simp only [verifyInterest, h]
  cases m.peerCertificates[keyName.getPrefix (-2)]? <;> rfl

/-! ## Accepting one record -/

/-- The certificates of a record, none for a record that is no certificate record. -/
def carried (record : Record) : List Certificate :=
  match CertificateRecord.ofRecord ndn record with
  | .ok certRecord => certRecord.certList
  | .error _ => []

/-- The names that a record revokes. -/
def revokes (record : Record) : List Name :=
  match RevocationRecord.ofRecord record with
  | .ok revokeRecord => revokeRecord.revokedCertList
  | .error _ => []

theorem carried_of_type {record : Record} (h : record.type ≠ .certificateRecord) :
    carried ndn record = [] := by
  rw [carried, CertificateRecord.ofRecord, if_pos h]

theorem revokes_of_type {record : Record} (h : record.type ≠ .revocationRecord) :
    revokes record = [] := by
  rw [revokes, RevocationRecord.ofRecord, if_pos h]

/-- The loop over the certificates of a record. -/
theorem foldl_pushCertificate (certs : List Certificate) (m : DefaultCertificateManager) :
    let m' := certs.foldl (fun m cert =>
      if ndn.fullName cert ∈ m.revokedCertificates then m else m.pushCertificate cert) m
    m'.peerPrefix = m.peerPrefix ∧ m'.anchorCert = m.anchorCert ∧
      m'.revokedCertificates = m.revokedCertificates ∧
      ∀ identity c, m'.Known identity c ↔ m.Known identity c ∨
        (c ∈ certs ∧ c.getIdentity = identity ∧ ndn.fullName c ∉ m.revokedCertificates) := by
  induction certs generalizing m with
  | nil => exact ⟨rfl, rfl, rfl, by simp⟩
  | cons cert certs ih =>
      simp only [List.foldl_cons] at ih ⊢
      -- a push changes no revocation, so each certificate is judged by those at the start
      by_cases hrevoked : ndn.fullName cert ∈ m.revokedCertificates
      · obtain ⟨hpre, hanchor, hsame, hknown⟩ := ih m
        rw [if_pos hrevoked]
        refine ⟨hpre, hanchor, hsame, fun identity c => ?_⟩
        rw [hknown, List.mem_cons]
        constructor
        · exact Or.imp_right fun ⟨hc, hrest⟩ => ⟨Or.inr hc, hrest⟩
        · rintro (hc | ⟨rfl | hc, hrest⟩)
          · exact Or.inl hc
          · exact absurd hrevoked hrest.2
          · exact Or.inr ⟨hc, hrest⟩
      · obtain ⟨hpre, hanchor, hsame, hknown⟩ := ih (m.pushCertificate cert)
        rw [if_neg hrevoked]
        refine ⟨hpre, hanchor, hsame, fun identity c => ?_⟩
        rw [hknown, known_pushCertificate, List.mem_cons]
        show (_ ∨ _) ∨ _ ∧ _ ∧ ndn.fullName c ∉ m.revokedCertificates ↔ _
        constructor
        · rintro ((hc | ⟨rfl, hid⟩) | ⟨hc, hrest⟩)
          · exact Or.inl hc
          · exact Or.inr ⟨Or.inl rfl, hid, hrevoked⟩
          · exact Or.inr ⟨Or.inr hc, hrest⟩
        · rintro (hc | ⟨rfl | hc, hid, hrest⟩)
          · exact Or.inl (Or.inl hc)
          · exact Or.inl (Or.inr ⟨rfl, hid⟩)
          · exact Or.inr ⟨hc, hid, hrest⟩

/-- The loop over the names of a record. -/
theorem foldl_revoke (names : List Name) (m : DefaultCertificateManager) :
    names.foldl (fun m certName =>
        { m with revokedCertificates := insert certName m.revokedCertificates }) m
      = { m with revokedCertificates := m.revokedCertificates ∪ names.toFinset } := by
  induction names generalizing m with
  | nil => simp
  | cons n names ih =>
      rw [List.foldl_cons, ih]
      simp only [List.toFinset_cons]
      congr 1
      ext x
      simp only [Finset.mem_union, Finset.mem_insert]
      tauto

/-- **What accepting a record does**: its certificates become known, except the revoked ones,
and the names it revokes become revoked. -/
theorem acceptRecord_spec (m : DefaultCertificateManager) (record : Record) :
    (m.acceptRecord ndn record).peerPrefix = m.peerPrefix ∧
      (m.acceptRecord ndn record).anchorCert = m.anchorCert ∧
      (∀ n, n ∈ (m.acceptRecord ndn record).revokedCertificates ↔
        n ∈ m.revokedCertificates ∨ n ∈ revokes record) ∧
      ∀ identity c, (m.acceptRecord ndn record).Known identity c ↔ m.Known identity c ∨
        (c ∈ carried ndn record ∧ c.getIdentity = identity ∧
          ndn.fullName c ∉ m.revokedCertificates) := by
  -- a record that carries and revokes nothing leaves the manager as it is
  have hsame : ∀ m' : DefaultCertificateManager, m' = m → carried ndn record = [] →
      revokes record = [] → m'.peerPrefix = m.peerPrefix ∧ m'.anchorCert = m.anchorCert ∧
        (∀ n, n ∈ m'.revokedCertificates ↔ n ∈ m.revokedCertificates ∨ n ∈ revokes record) ∧
        ∀ identity c, m'.Known identity c ↔ m.Known identity c ∨
          (c ∈ carried ndn record ∧ c.getIdentity = identity ∧
            ndn.fullName c ∉ m.revokedCertificates) := by
    rintro m' rfl hcarried hrevokes
    simp [hcarried, hrevokes]
  unfold acceptRecord
  cases htype : record.type with
  | certificateRecord =>
      have hnone : revokes record = [] := revokes_of_type (by rw [htype]; decide)
      simp only
      cases hread : CertificateRecord.ofRecord ndn record with
      | error e => exact hsame m rfl (by rw [carried, hread]) hnone
      | ok certRecord =>
          have hlist : carried ndn record = certRecord.certList := by rw [carried, hread]
          obtain ⟨hpre, hanchor, hrevoked, hknown⟩ :=
            foldl_pushCertificate ndn certRecord.certList m
          rw [hlist, hnone]
          refine ⟨hpre, hanchor, fun n => ?_, hknown⟩
          simp only [hrevoked, List.not_mem_nil, or_false]
  | revocationRecord =>
      have hnone : carried ndn record = [] := carried_of_type ndn (by rw [htype]; decide)
      simp only
      cases hread : RevocationRecord.ofRecord record with
      | error e => exact hsame m rfl hnone (by rw [revokes, hread])
      | ok revokeRecord =>
          have hlist : revokes record = revokeRecord.revokedCertList := by rw [revokes, hread]
          dsimp only
          rw [foldl_revoke, hlist, hnone]
          refine ⟨rfl, rfl, fun n => by simp, fun identity c => ?_⟩
          show m.Known identity c ↔ _
          simp only [List.not_mem_nil, false_and, or_false]
  | baseRecord | genericRecord | genesisRecord =>
      apply hsame m rfl
      · exact carried_of_type ndn (by rw [htype]; decide)
      · exact revokes_of_type (by rw [htype]; decide)

/-! ## Accepting a list of records -/

/-- The manager after a list of records, in this order. -/
def acceptAll (m : DefaultCertificateManager) (records : List Record) :
    DefaultCertificateManager :=
  records.foldl (acceptRecord ndn) m

/-- A certificate that a record of the list carries, ahead of every revocation of it. -/
def CarriedFirst (m : DefaultCertificateManager) (records : List Record) (cert : Certificate) :
    Prop :=
  ndn.fullName cert ∉ m.revokedCertificates ∧ ∃ before record after,
    records = before ++ record :: after ∧ cert ∈ carried ndn record ∧
      ∀ q ∈ before, ndn.fullName cert ∉ revokes q

/-- The first record of a list carries the certificate, or it does not revoke it and a later
one carries it. -/
theorem carriedFirst_cons {m : DefaultCertificateManager} {record : Record}
    {records : List Record} {cert : Certificate} :
    CarriedFirst ndn m (record :: records) cert ↔
      (ndn.fullName cert ∉ m.revokedCertificates ∧ cert ∈ carried ndn record) ∨
        CarriedFirst ndn (m.acceptRecord ndn record) records cert := by
  have hrevoked := (acceptRecord_spec ndn m record).2.2.1 (ndn.fullName cert)
  unfold CarriedFirst
  rw [hrevoked, not_or]
  constructor
  · rintro ⟨hfree, _ | ⟨q, before⟩, r, after, heq, hr, hbefore⟩
    · obtain ⟨rfl, rfl⟩ := List.cons.inj heq
      exact Or.inl ⟨hfree, hr⟩
    · obtain ⟨rfl, rfl⟩ := List.cons.inj heq
      exact Or.inr ⟨⟨hfree, hbefore record List.mem_cons_self⟩, before, r, after, rfl, hr,
        fun x hx => hbefore x (List.mem_cons_of_mem record hx)⟩
  · rintro (⟨hfree, hr⟩ | ⟨⟨hfree, hq⟩, before, r, after, rfl, hr, hbefore⟩)
    · exact ⟨hfree, [], record, records, rfl, hr, fun q hq => absurd hq List.not_mem_nil⟩
    · refine ⟨hfree, record :: before, r, after, rfl, hr, fun x hx => ?_⟩
      rcases List.mem_cons.1 hx with rfl | hx
      · exact hq
      · exact hbefore x hx

theorem mem_revoked_acceptAll {m : DefaultCertificateManager} {records : List Record} {n : Name} :
    n ∈ (acceptAll ndn m records).revokedCertificates ↔
      n ∈ m.revokedCertificates ∨ ∃ r ∈ records, n ∈ revokes r := by
  induction records generalizing m with
  | nil => simp [acceptAll]
  | cons r records ih =>
      show n ∈ (acceptAll ndn (m.acceptRecord ndn r) records).revokedCertificates ↔ _
      rw [ih, (acceptRecord_spec ndn m r).2.2.1, or_assoc, List.exists_mem_cons_iff]

/-- **The certificates known after a list of records** are those known before and those that
were carried ahead of their revocations. -/
theorem known_acceptAll {m : DefaultCertificateManager} {records : List Record}
    {identity : Name} {c : Certificate} :
    (acceptAll ndn m records).Known identity c ↔
      m.Known identity c ∨ (c.getIdentity = identity ∧ CarriedFirst ndn m records c) := by
  induction records generalizing m with
  | nil => simp [acceptAll, CarriedFirst]
  | cons r records ih =>
      show (acceptAll ndn (m.acceptRecord ndn r) records).Known identity c ↔ _
      rw [ih, (acceptRecord_spec ndn m r).2.2.2, carriedFirst_cons]
      tauto

/-- A certificate that is not revoked in the end was carried ahead of its revocations by
whatever record carries it. -/
theorem carriedFirst_of_unrevoked {m : DefaultCertificateManager} {records : List Record}
    {c : Certificate}
    (h : ndn.fullName c ∉ (acceptAll ndn m records).revokedCertificates) :
    CarriedFirst ndn m records c ↔ ∃ r ∈ records, c ∈ carried ndn r := by
  rw [mem_revoked_acceptAll, not_or] at h
  obtain ⟨hfree, hnone⟩ := h
  constructor
  · rintro ⟨_, before, r, after, rfl, hr, _⟩
    exact ⟨r, by simp, hr⟩
  · rintro ⟨r, hr, hc⟩
    obtain ⟨before, after, rfl⟩ := List.append_of_mem hr
    exact ⟨hfree, before, r, after, rfl, hc, fun q hq hrevokes =>
      hnone ⟨q, List.mem_append_left _ hq, hrevokes⟩⟩

end DefaultCertificateManager

end DLedger
