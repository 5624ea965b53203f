import DLedger.Cert.Accept
import DLedger.Ledger.Lifetimes
import DLedger.Ledger.Sample
import DLedger.Properties.CertChain

set_option autoImplicit false

/-! # What a peer keeps and what it forgets when it is started again

The database is all that a run leaves to the next one. It is a graph of records in every run, and
what was confirmed is there for good. But the certificate manager and the list of the last
certificate records are not stored, and a record of the database is not confirmed a second time, so
what an earlier run has learnt from certificate and revocation records stays forgotten.
-/

namespace DLedger

open Tlv (Bytes Block)

namespace LedgerImpl

variable {σ : Type} {P : Peer σ} {s : LedgerImpl σ} {db : Backend} {certManager : σ}

/-! ## The graph of records -/

/-- A ledger has finitely many records. -/
theorem finite_holds (P : Peer σ) (s : LedgerImpl σ) : {n | ∃ r, Holds P s n r}.Finite := by
  have hkeys : {n | ∃ r, Holds P s n r}
      ⊆ ↑(s.tailRecords.keys ++ s.backend.db.keys.map P.ndn.ofUri).toFinset := by
    rintro n ⟨r, hr⟩
    rw [Finset.mem_coe, List.mem_toFinset, List.mem_append, List.mem_map]
    rcases hr with ⟨t, ht, _⟩ | ⟨d, hd, _⟩
    · have hmem : n ∈ s.tailRecords.keys := by
        rw [Std.TreeMap.mem_keys, Std.TreeMap.mem_iff_isSome_getElem?, ht]
        rfl
      exact Or.inl hmem
    · have hmem : P.ndn.toUri n ∈ s.backend.db.keys := by
        rw [Std.TreeMap.mem_keys, Std.TreeMap.mem_iff_isSome_getElem?,
          show s.backend.db[P.ndn.toUri n]? = some d from hd]
        rfl
      exact Or.inr ⟨_, hmem, P.ndn.ofUri_toUri n⟩
  exact (Finset.finite_toSet _).subset hkeys

/-- Tail and database are a graph of records: pointers lead to records of it, there are no cycles,
and from every record one comes to a genesis record without pointers. -/
structure RecordGraph (P : Peer σ) (s : LedgerImpl σ) : Prop where
  closed : ∀ n r, Holds P s n r → ∀ p ∈ r.recordPointers, ∃ q, Holds P s p q
  acyclic : Dag.Acyclic (Links P s)
  rooted : ∀ n r, Holds P s n r → ∃ m q, Holds P s m q ∧
    Relation.ReflTransGen (Links P s) n m ∧ q.type = .genesisRecord ∧ q.recordPointers = []

/-- **In every state of every run the ledger is a graph of records**, whatever earlier runs have
left. -/
theorem recordGraph (hconfig : Sensible P.config) (hdb : LeftOver P.ndn db)
    (h : Reachable P db certManager s) : RecordGraph P s := by
  have hinv := (h.inv hconfig.confirmWeight_pos hconfig.smallWeights).tail
  have hgraph := h.ledgerGraph hconfig hdb.graph
  have hrooted := h.rooted hconfig.precedes hdb.graph.rooted
  have hstored : ∀ p d, s.backend.getRecord P.ndn p = some d → ∃ q, Holds P s p q := by
    intro p d hd
    obtain ⟨q, hdec, _⟩ := hgraph.decoded p d hd
    exact ⟨q, Or.inr ⟨d, hd, hdec⟩⟩
  have hclosed : ∀ n r, Holds P s n r → ∀ p ∈ r.recordPointers, ∃ q, Holds P s p q := by
    rintro n r (⟨t, ht, rfl⟩ | ⟨d, hd, hdec⟩) p hp
    · rcases hinv.held n t ht p hp with ⟨u, hu⟩ | ⟨d, hd⟩
      · exact ⟨u.record, Or.inl ⟨u, hu, rfl⟩⟩
      · exact hstored p d hd
    · obtain ⟨r', hdec', _, hheld⟩ := hgraph.decoded n d hd
      rw [hdec] at hdec'
      cases hdec'
      obtain ⟨d', hd'⟩ := hheld p hp
      exact hstored p d' hd'
  have hgenesis : ∀ n r, Holds P s n r → r.recordPointers = [] → r.type = .genesisRecord := by
    rintro n r (⟨t, ht, rfl⟩ | ⟨d, hd, hdec⟩) hnil
    · obtain ⟨d, hd, _⟩ := (hinv.sound.named n t ht).exists_data
      exact hrooted.tail n t ht d hd _ ((hinv.sound.named n t ht).ofData_eq hd).1 hnil
    · exact hrooted.holds n d hd r hdec hnil
  refine ⟨hclosed, hgraph.acyclic, fun n r hr => ?_⟩
  obtain ⟨m, ⟨q, hq⟩, hpath, hsink⟩ := hgraph.acyclic.exists_sink (finite_holds P s)
    (fun x ⟨r, hx⟩ y ⟨r', hx', hy⟩ => hclosed x r' hx' y hy) (show n ∈ {n | ∃ r, Holds P s n r} from
      ⟨r, hr⟩)
  have hnil : q.recordPointers = [] := by
    rw [List.eq_nil_iff_forall_not_mem]
    exact fun p hp => hsink p ⟨q, hq, hp⟩
  exact ⟨m, q, hq, hpath, hgenesis m q hq hnil, hnil⟩

/-- The database that a run on two packets leaves. -/
def leftDatabase : Backend :=
  (Sample.run (Sample.peer (Sample.config 1 1 1)) () Sample.twoPackets).1.backend

/-- The peer when it is started again. -/
def restarted : LedgerImpl Unit :=
  (construct (Sample.peer (Sample.config 1 1 1)) Sample.ambient leftDatabase ()).1

theorem sensible_config (contributionWeight confirmWeight : Nat) (hc : contributionWeight < 100)
    (hpos : 1 ≤ confirmWeight) (hk : confirmWeight < 100) :
    Sensible (Sample.config 1 contributionWeight confirmWeight) :=
  ⟨hpos, Sample.smallWeights hc hk, show 1 ≤ 1 ∧ 1 < 2 ^ 31 by decide⟩

theorem leftOver_leftDatabase : LeftOver Sample.ndn leftDatabase :=
  Relation.ReflTransGen.single ⟨Unit, Sample.peer (Sample.config 1 1 1), (), _, rfl,
    sensible_config 1 1 (by decide) (by decide) (by decide),
    Sample.reachable_run Sample.run_twoPackets, rfl⟩

theorem reachable_restarted :
    Reachable (Sample.peer (Sample.config 1 1 1)) leftDatabase () restarted := by
  have hreturns : (construct (Sample.peer (Sample.config 1 1 1)) Sample.ambient leftDatabase ()).2
      = .ok () := by
    decide +kernel
  have hstart := Outcome.eq_of_returns hreturns
  refine Reachable.start (show Ambient.Writes Sample.ambient from fun _ => rfl) ?_
  simpa only [restarted] using hstart

theorem recordGraph_restarted : RecordGraph (Sample.peer (Sample.config 1 1 1)) restarted :=
  recordGraph (sensible_config 1 1 (by decide) (by decide) (by decide)) leftOver_leftDatabase
    reachable_restarted

/-! ## What is kept -/

/-- **A confirmed record is there for good**: `getRecord` returns it in every state of every later
run. Only under the name of a genesis record it may return another one, which is a genesis record
as well. -/
theorem confirmed_survives {before : Backend} (hconfig : Sensible P.config)
    (hbefore : LeftOver P.ndn before) (hbetween : Relation.ReflTransGen (Leaves P.ndn) before db)
    (h : Reachable P db certManager s) {n : Name} {d : Data}
    (hd : before.getRecord P.ndn n = some d) :
    ∃ r, s.getRecord P n = .ok (some r) ∧ (r.data = some d ∨ r.type = .genesisRecord) := by
  have hdb : LeftOver P.ndn db := hbefore.trans hbetween
  have hresumed := h.resumed hconfig
  have hinv := (h.inv hconfig.confirmWeight_pos hconfig.smallWeights).tail
  cases ht : s.tailRecords[n]? with
  | some t =>
      -- it is a genesis record that has been added again
      obtain ⟨d₁, hd₁, _⟩ := stillStores_of_leaves hbetween n d hd
      obtain ⟨htype, hendorsed⟩ := hresumed.tail n t d₁ ht hd₁
      have hverified : t.parentEndorseVerified = true := (hinv.sound.flags n t ht).trans hendorsed
      refine ⟨t.record, ?_, Or.inr htype⟩
      simp only [getRecord, ht, hverified, if_true]
  | none =>
      obtain ⟨d', hd', hsame⟩ := (stillStores_of_leaves hbetween).trans hresumed.kept n d hd
      obtain ⟨r, hdec, _⟩ := (h.ledgerGraph hconfig hdb.graph).decoded n d' hd'
      refine ⟨r, ?_, ?_⟩
      · simp only [getRecord, ht, hd', hdec, Except.map]
      · rcases hsame with rfl | ⟨r', hdec', htype⟩
        · exact Or.inl (Record.ofData_eq_ok hdec).2.1
        · rw [hdec] at hdec'
          cases hdec'
          exact Or.inr htype

/-- The first of the two packets was confirmed by the second one. -/
theorem confirmed_survives_restarted :
    let d := Sample.packet 97 0 [Sample.genesis]
    ∃ r, restarted.getRecord (Sample.peer (Sample.config 1 1 1)) (Sample.ndn.fullName d)
      = .ok (some r) ∧ (r.data = some d ∨ r.type = .genesisRecord) := by
  intro d
  have hstored : leftDatabase.getRecord Sample.ndn (Sample.ndn.fullName d) = some d := by
    decide +kernel
  exact confirmed_survives (P := Sample.peer (Sample.config 1 1 1))
    (sensible_config 1 1 (by decide) (by decide) (by decide)) leftOver_leftDatabase
    Relation.ReflTransGen.refl reachable_restarted hstored

/-! ## What is forgotten -/

/-- What a manager knows and what it has revoked beyond its first state comes from confirmed
records. -/
structure Learnt (ndn : Ndn) (m₀ : DefaultCertificateManager) (confirmed : List Record)
    (m : DefaultCertificateManager) : Prop where
  known : ∀ identity cert, m.Known identity cert → m₀.Known identity cert ∨
    ∃ r ∈ confirmed, cert ∈ DefaultCertificateManager.carried ndn r
  revoked : ∀ certName ∈ m.revokedCertificates, certName ∈ m₀.revokedCertificates ∨
    ∃ r ∈ confirmed, certName ∈ DefaultCertificateManager.revokes r

theorem Learnt.cons {ndn : Ndn} {m₀ m : DefaultCertificateManager} {confirmed : List Record}
    (h : Learnt ndn m₀ confirmed m) (record : Record) : Learnt ndn m₀ (record :: confirmed) m := by
  constructor
  · intro identity cert hcert
    rcases h.known identity cert hcert with hold | ⟨r, hr, hmem⟩
    · exact Or.inl hold
    · exact Or.inr ⟨r, List.mem_cons_of_mem record hr, hmem⟩
  · intro certName hcert
    rcases h.revoked certName hcert with hold | ⟨r, hr, hmem⟩
    · exact Or.inl hold
    · exact Or.inr ⟨r, List.mem_cons_of_mem record hr, hmem⟩

theorem learnt_frame {P : Peer DefaultCertificateManager} {m₀ : DefaultCertificateManager}
    (hP : P.certManager = DefaultCertificateManager.manager P.ndn) :
    CallFrame P (fun s => Learnt P.ndn m₀ s.confirmations s.certManager) (fun _ => True)
      (fun _ => True) where
  withTail _ _ h := h
  withStack _ _ h := h
  quiet s e he h := by
    rw [emit_confirmations, he.2]
    exact h
  insert _ _ _ _ h := h
  blank := trivial
  waiting _ _ := trivial
  confirm amb record s _ h := by
    cases hdata : record.data with
    | none =>
        simp only [onRecordConfirmed, hdata]
        exact h
    | some d =>
        rw [onRecordConfirmed_confirmations P amb hdata]
        have hbefore := h.cons record
        rcases onRecordConfirmed_certManager_cases P amb record s with hsame | haccept
        · rw [hsame]
          exact hbefore
        · rw [hP] at haccept
          obtain ⟨_, _, hrevokes, hcarries⟩ :=
            DefaultCertificateManager.acceptRecord_spec P.ndn s.certManager record
          rw [haccept]
          refine ⟨fun identity cert hcert => ?_, fun certName hcert => ?_⟩
          · rcases (hcarries identity cert).1 hcert with hold | ⟨hmem, _⟩
            · exact hbefore.known identity cert hold
            · exact Or.inr ⟨record, List.mem_cons_self, hmem⟩
          · rcases (hrevokes certName).1 hcert with hold | hmem
            · exact hbefore.revoked certName hold
            · exact Or.inr ⟨record, List.mem_cons_self, hmem⟩

/-- **What was learnt from the records of the database is forgotten.** In a run on a database, what
the certificate manager knows or has revoked beyond its first state comes from records that were
confirmed in this run and were not in the database before, and so do the last certificate
records. -/
theorem restart_forgets {P : Peer DefaultCertificateManager} {m₀ : DefaultCertificateManager}
    {s : LedgerImpl DefaultCertificateManager}
    (hP : P.certManager = DefaultCertificateManager.manager P.ndn) (hconfig : Sensible P.config)
    (h : Reachable P db m₀ s) :
    (∀ identity cert, s.certManager.Known identity cert → m₀.Known identity cert ∨
      ∃ r ∈ s.confirmations, db.getRecord P.ndn (r.getRecordName P.ndn) = none ∧
        cert ∈ DefaultCertificateManager.carried P.ndn r) ∧
    (∀ certName ∈ s.certManager.revokedCertificates, certName ∈ m₀.revokedCertificates ∨
      ∃ r ∈ s.confirmations, db.getRecord P.ndn (r.getRecordName P.ndn) = none ∧
        certName ∈ DefaultCertificateManager.revokes r) ∧
    ∀ n ∈ s.lastCertRecords, db.getRecord P.ndn n = none := by
  have hstart : Learnt P.ndn m₀ (blank db m₀).confirmations (blank db m₀).certManager :=
    ⟨fun _ _ hcert => Or.inl hcert, fun _ hcert => Or.inl hcert⟩
  have hlearnt : Learnt P.ndn m₀ s.confirmations s.certManager :=
    (h.runsTo.keeps (learnt_frame hP) hstart (fun _ _ _ => trivial)
      fun _ _ _ _ => permits_of_trivial).holds
  -- only a genesis record is confirmed when it is in the database already
  have hnew : ∀ r ∈ s.confirmations, r.type ≠ .genesisRecord →
      db.getRecord P.ndn (r.getRecordName P.ndn) = none := by
    intro r hr htype
    refine Option.eq_none_iff_forall_not_mem.2 fun d hd => htype ?_
    exact (h.resumed hconfig).confirmed r hr d hd
  refine ⟨fun identity cert hcert => ?_, fun certName hcert => ?_, fun n hn => ?_⟩
  · refine (hlearnt.known identity cert hcert).imp_right fun ⟨r, hr, hmem⟩ => ⟨r, hr, ?_, hmem⟩
    refine hnew r hr fun htype => ?_
    rw [DefaultCertificateManager.carried_of_type _ (by rw [htype]; decide)] at hmem
    exact absurd hmem List.not_mem_nil
  · refine (hlearnt.revoked certName hcert).imp_right fun ⟨r, hr, hmem⟩ => ⟨r, hr, ?_, hmem⟩
    refine hnew r hr fun htype => ?_
    rw [DefaultCertificateManager.revokes_of_type (by rw [htype]; decide)] at hmem
    exact absurd hmem List.not_mem_nil
  · rw [h.runsTo.lastCertRecords] at hn
    have hlink := (Frontier.foldl_push_sublist (certLinks P.ndn s.confirmations) []).subset hn
    rw [List.nil_append, List.mem_map] at hlink
    obtain ⟨link, hlink, rfl⟩ := hlink
    obtain ⟨r, hr, hread⟩ := List.mem_filterMap.1 hlink
    rw [certLink?] at hread
    cases hcert : CertificateRecord.ofRecord P.ndn r with
    | error e => rw [hcert] at hread; cases hread
    | ok certRecord =>
        rw [hcert] at hread
        cases hread
        refine hnew r (List.mem_reverse.1 hr) fun htype => ?_
        rw [CertificateRecord.ofRecord, if_pos (by rw [htype]; decide)] at hcert
        cases hcert

/-- The certificate of a confirmed record of the anchor is not known after a restart. -/
theorem restart_forgets_certificate :
    let P := Sample.certificatePeer
    let db := (Sample.run P Sample.certificateManager Sample.certificatePackets).1.backend
    let c := Sample.certificatePacket 65 99 [Sample.genesis]
    let s := (construct P Sample.ambient db Sample.certificateManager).1
    db.getRecord P.ndn (P.ndn.fullName c) = some c ∧
      ∀ identity, ¬ s.certManager.Known identity (Sample.certificate 99) := by
  intro P db c s
  have hreturns : (construct P Sample.ambient db Sample.certificateManager).2 = .ok () := by
    decide +kernel
  have hreach : Reachable P db Sample.certificateManager s :=
    Reachable.start (show Ambient.Writes Sample.ambient from fun _ => rfl)
      (Outcome.eq_of_returns hreturns)
  have hnone : s.confirmations.isEmpty = true := by
    decide +kernel
  have hunknown : ∀ entry ∈ Sample.certificateManager.peerCertificates.toList,
      Sample.certificate 99 ∉ entry.2 := by
    decide +kernel
  refine ⟨by decide +kernel, fun identity hknown => ?_⟩
  rcases (restart_forgets rfl (sensible_config 5 1 (by decide) (by decide) (by decide))
    hreach).1 identity _ hknown with ⟨certs, hcerts, hmem⟩ | ⟨r, hr, _⟩
  · exact hunknown (identity, certs) (Std.TreeMap.mem_toList_iff_getElem?_eq_some.2 hcerts) hmem
  · rw [List.isEmpty_iff.1 hnone] at hr
    exact absurd hr List.not_mem_nil

end LedgerImpl

end DLedger
