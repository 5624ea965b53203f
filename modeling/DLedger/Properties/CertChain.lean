import DLedger.Ledger.Sample
import DLedger.Lib.Frontier

set_option autoImplicit false

/-! # The last certificate records

`m_lastCertRecords` is what a new certificate record lists as its previous ones. A confirmed
certificate record is pushed, and the ones that it lists are removed. The result is the frontier
of the chain where predecessors are confirmed ahead of their successors.
-/

namespace DLedger

open Tlv (Bytes Block)

namespace LedgerImpl

variable {σ : Type} {P : Peer σ} {amb : Ambient} {s : LedgerImpl σ} {certManager : σ}

/-- The name of a certificate record and the names that it lists. -/
def certLink? (ndn : Ndn) (record : Record) : Option (Frontier.Link Name) :=
  match CertificateRecord.ofRecord ndn record with
  | .ok certRecord => some (record.getRecordName ndn, certRecord.prevCert)
  | .error _ => none

/-- The certificate records that were confirmed, oldest first. -/
def certLinks (ndn : Ndn) (confirmations : List Record) : List (Frontier.Link Name) :=
  confirmations.reverse.filterMap (certLink? ndn)

theorem certLinks_cons (ndn : Ndn) (record : Record) (confirmations : List Record) :
    certLinks ndn (record :: confirmations)
      = certLinks ndn confirmations ++ (certLink? ndn record).toList := by
  rw [certLinks, List.reverse_cons, List.filterMap_append]
  cases h : certLink? ndn record <;> simp [certLinks, h]

/-- The confirmed certificate records, by their type. -/
def certRecords (confirmations : List Record) : List Record :=
  confirmations.filter fun record => record.type == .certificateRecord

theorem certRecords_cons (record : Record) (confirmations : List Record) :
    certRecords (record :: confirmations)
      = if record.type = .certificateRecord then record :: certRecords confirmations
        else certRecords confirmations := by
  simp only [certRecords, List.filter_cons, beq_iff_eq]

/-- `m_lastCertRecords` has, without duplicates, the names of the confirmed certificate records
that no other confirmed certificate record lists. -/
structure LastCertRecords (ndn : Ndn) (confirmations : List Record) (last : List Name) : Prop where
  nodup : last.Nodup
  mem_iff : ∀ n, n ∈ last ↔ (∃ r ∈ certRecords confirmations, r.getRecordName ndn = n) ∧
    ∀ r ∈ certRecords confirmations, r.getRecordName ndn ≠ n →
      ∀ certRecord, CertificateRecord.ofRecord ndn r = .ok certRecord → n ∉ certRecord.prevCert

/-- **The update of `onRecordConfirmed` is the push of the frontier.** -/
theorem onRecordConfirmed_lastCertRecords (record : Record)
    (h : s.lastCertRecords = Frontier.run (certLinks P.ndn s.confirmations)) :
    (onRecordConfirmed P amb record s).1.lastCertRecords
      = Frontier.run (certLinks P.ndn (onRecordConfirmed P amb record s).1.confirmations) := by
  cases hdata : record.data with
  | none =>
      unfold onRecordConfirmed
      simp only [hdata]
      exact h
  | some data =>
      rw [onRecordConfirmed_confirmations P amb hdata, certLinks_cons]
      unfold onRecordConfirmed
      simp only [hdata]
      have hother : record.type ≠ .certificateRecord → certLink? P.ndn record = none := by
        intro hne
        rw [certLink?, CertificateRecord.ofRecord, if_pos hne]
      have hsame : certLink? P.ndn record = none → s.lastCertRecords
          = Frontier.run (certLinks P.ndn s.confirmations ++ (certLink? P.ndn record).toList) := by
        intro hnone
        rw [hnone, Option.toList_none, List.append_nil, h]
      -- only a certificate record that can be read adds a link, and then the list is a push
      cases htype : record.type with
      | certificateRecord =>
          simp only
          cases hread : CertificateRecord.ofRecord P.ndn record with
          | error e => exact hsame (by rw [certLink?, hread])
          | ok certRecord =>
              have hlink : certLink? P.ndn record
                  = some (record.getRecordName P.ndn, certRecord.prevCert) := by
                rw [certLink?, hread]
              rw [hlink, Frontier.run, Option.toList_some, List.foldl_append]
              show (s.lastCertRecords ++ _).filter _ = Frontier.push _ _
              rw [h]
              exact List.filter_congr fun n _ => decide_eq_decide.2 Iff.rfl
      | baseRecord | genericRecord | revocationRecord | genesisRecord =>
          exact hsame (hother (by rw [htype]; decide))

theorem lastCertRecords_frame :
    CallFrame P (fun s => s.lastCertRecords = Frontier.run (certLinks P.ndn s.confirmations))
      (fun _ => True) (fun _ => True) where
  withTail _ _ h := h
  withStack _ _ h := h
  quiet s e he h := by
    rw [emit_confirmations, he.2]
    exact h
  confirm amb record s _ h := onRecordConfirmed_lastCertRecords record h
  blank := trivial
  waiting _ _ := trivial
  insert _ _ _ _ h := h

/-- In every state of every run `m_lastCertRecords` is the result of the pushes. -/
theorem RunsTo.lastCertRecords {db : Backend} {allowed : LedgerImpl σ → Call → Prop}
    (h : RunsTo P db certManager allowed s) :
    s.lastCertRecords = Frontier.run (certLinks P.ndn s.confirmations) := by
  refine (h.keeps lastCertRecords_frame rfl (fun _ _ _ => trivial) fun s c _ _ => ?_).holds
  cases c with
  | createRecord amb record => exact fun _ _ _ => trivial
  | onFetchedRecord amb data => exact fun _ _ _ _ => trivial
  | _ => trivial

/-- The links are those of the certificate records, where these can be read. -/
theorem certLinks_of_readable {ndn : Ndn} {confirmations : List Record}
    (hreadable : ∀ r ∈ certRecords confirmations, ∃ certRecord,
      CertificateRecord.ofRecord ndn r = .ok certRecord) :
    (certLinks ndn confirmations).map Prod.fst
      = ((certRecords confirmations).map fun r => r.getRecordName ndn).reverse := by
  induction confirmations with
  | nil => rfl
  | cons r confirmations ih =>
      rw [certRecords_cons] at hreadable ⊢
      rw [certLinks_cons, List.map_append]
      by_cases htype : r.type = .certificateRecord
      · rw [if_pos htype] at hreadable ⊢
        obtain ⟨certRecord, hread⟩ := hreadable r List.mem_cons_self
        rw [ih fun q hq => hreadable q (List.mem_cons_of_mem r hq)]
        simp [certLink?, hread]
      · rw [if_neg htype] at hreadable ⊢
        have hnone : certLink? ndn r = none := by
          rw [certLink?, CertificateRecord.ofRecord, if_pos htype]
        rw [ih hreadable, hnone]
        simp

theorem mem_certLinks {ndn : Ndn} {confirmations : List Record} {link : Frontier.Link Name} :
    link ∈ certLinks ndn confirmations ↔ ∃ r ∈ certRecords confirmations, ∃ certRecord,
      CertificateRecord.ofRecord ndn r = .ok certRecord ∧
        link = (r.getRecordName ndn, certRecord.prevCert) := by
  simp only [certLinks, certRecords, List.mem_filterMap, List.mem_reverse, List.mem_filter,
    beq_iff_eq]
  constructor
  · rintro ⟨r, hr, hlink⟩
    unfold certLink? at hlink
    cases hread : CertificateRecord.ofRecord ndn r with
    | error e => rw [hread] at hlink; cases hlink
    | ok certRecord =>
        rw [hread] at hlink
        refine ⟨r, ⟨hr, ?_⟩, certRecord, hread, (Option.some.inj hlink).symm⟩
        by_contra hne
        rw [CertificateRecord.ofRecord, if_pos hne] at hread
        cases hread
  · rintro ⟨r, ⟨hr, _⟩, certRecord, hread, rfl⟩
    exact ⟨r, hr, by rw [certLink?, hread]⟩

/-- Where the certificate records can be read, the property is that of the frontier. -/
theorem lastCertRecords_iff_isFrontier {ndn : Ndn} {confirmations : List Record} {last : List Name}
    (hreadable : ∀ r ∈ certRecords confirmations, ∃ certRecord,
      CertificateRecord.ofRecord ndn r = .ok certRecord) :
    LastCertRecords ndn confirmations last ↔
      Frontier.IsFrontier (certLinks ndn confirmations) last := by
  have hnames : ∀ n, (∃ r ∈ certRecords confirmations, r.getRecordName ndn = n) ↔
      ∃ link ∈ certLinks ndn confirmations, link.1 = n := by
    intro n
    have hmem := certLinks_of_readable hreadable
    rw [← List.mem_map, ← List.mem_map, hmem, List.mem_reverse]
  have hlisted : ∀ n, (∀ r ∈ certRecords confirmations, r.getRecordName ndn ≠ n →
        ∀ certRecord, CertificateRecord.ofRecord ndn r = .ok certRecord →
          n ∉ certRecord.prevCert) ↔
      ∀ link ∈ certLinks ndn confirmations, link.1 ≠ n → n ∉ link.2 := by
    intro n
    constructor
    · intro h link hlink hne
      obtain ⟨r, hr, certRecord, hread, rfl⟩ := mem_certLinks.1 hlink
      exact h r hr hne certRecord hread
    · intro h r hr hne certRecord hread
      exact h _ (mem_certLinks.2 ⟨r, hr, certRecord, hread, rfl⟩) hne
  constructor
  · intro h
    exact ⟨h.nodup, fun n => by rw [h.mem_iff n, hnames, hlisted]⟩
  · intro h
    exact ⟨h.nodup, fun n => by rw [h.mem_iff n, hnames, hlisted]⟩

/-- **In every run that confirms no certificate record twice, `m_lastCertRecords` is the frontier
of the certificate chain exactly if each confirmed record that others list is listed when it is
confirmed or later.** -/
theorem lastCertRecords_iff {db : Backend} {allowed : LedgerImpl σ → Call → Prop}
    (h : RunsTo P db certManager allowed s)
    (hreadable : ∀ r ∈ certRecords s.confirmations, ∃ certRecord,
      CertificateRecord.ofRecord P.ndn r = .ok certRecord)
    (honce : ((certRecords s.confirmations).map fun r => r.getRecordName P.ndn).Nodup) :
    LastCertRecords P.ndn s.confirmations s.lastCertRecords ↔
      Frontier.InOrder (certLinks P.ndn s.confirmations) := by
  rw [lastCertRecords_iff_isFrontier hreadable, h.lastCertRecords]
  apply Frontier.isFrontier_iff
  rw [certLinks_of_readable hreadable]
  exact List.nodup_reverse.2 honce

/-- Whether the confirmed certificate records can be read, for a test. -/
theorem readable_of_all {ndn : Ndn} {confirmations : List Record}
    (h : ((certRecords confirmations).all fun r =>
      (CertificateRecord.ofRecord ndn r).toOption.isSome) = true) :
    ∀ r ∈ certRecords confirmations, ∃ certRecord,
      CertificateRecord.ofRecord ndn r = .ok certRecord := by
  intro r hr
  have hread := List.all_eq_true.1 h r hr
  cases hof : CertificateRecord.ofRecord ndn r with
  | error e => rw [hof] at hread; cases hread
  | ok certRecord => exact ⟨certRecord, rfl⟩

/-- Two certificate records of the anchor, of which the second one names the first one, each
confirmed when it has come. -/
def successionPackets : List Data :=
  let c := Sample.certificatePacket 65 99 [Sample.genesis]
  let d := Sample.successorPacket 65 (Sample.certificateNdn.fullName c) [Sample.genesis]
  [c, Sample.packet 97 0 [Sample.certificateNdn.fullName c], d,
    Sample.packet 97 1 [Sample.certificateNdn.fullName d]]

/-- The second one has replaced the first one. -/
theorem lastCertRecords_iff_successionPackets :
    let s := (Sample.run Sample.certificatePeer Sample.certificateManager successionPackets).1
    (certRecords s.confirmations).length = 2 ∧ s.lastCertRecords.length = 1 ∧
      LastCertRecords Sample.certificateNdn s.confirmations s.lastCertRecords := by
  intro s
  have hrun : RunsTo Sample.certificatePeer Backend.empty Sample.certificateManager
      (fun _ _ => True) s :=
    Sample.runsTo_run (fun _ _ _ => trivial) (by decide +kernel)
  have horder : Frontier.InOrder (certLinks Sample.certificateNdn s.confirmations) :=
    Frontier.InOrder.of_pairwise (by decide +kernel) (by decide +kernel)
  exact ⟨by decide +kernel, by decide +kernel, (lastCertRecords_iff hrun
    (readable_of_all (by decide +kernel)) (by decide +kernel)).2 horder⟩

/-- **A predecessor that is confirmed behind its successor stays in the list.** -/
theorem not_lastCertRecords_successorPackets :
    let s := (Sample.run Sample.certificatePeer Sample.certificateManager
      Sample.successorPackets).1
    Reachable Sample.certificatePeer Backend.empty Sample.certificateManager s ∧
      ¬ LastCertRecords Sample.certificateNdn s.confirmations s.lastCertRecords := by
  intro s
  refine ⟨Sample.reachable_run (by decide +kernel), fun h => ?_⟩
  let n := Sample.certificateNdn.fullName (Sample.certificatePacket 65 99 [Sample.genesis])
  have hmem : n ∈ s.lastCertRecords := by decide +kernel
  have hlisted : ((certRecords s.confirmations).any fun r =>
      decide (r.getRecordName Sample.certificateNdn ≠ n) &&
        (CertificateRecord.ofRecord Sample.certificateNdn r).toOption.any fun certRecord =>
          decide (n ∈ certRecord.prevCert)) = true := by
    decide +kernel
  obtain ⟨r, hr, hboth⟩ := List.any_eq_true.1 hlisted
  rw [Bool.and_eq_true, decide_eq_true_eq] at hboth
  cases hread : CertificateRecord.ofRecord Sample.certificateNdn r with
  | error e => rw [hread] at hboth; cases hboth.2
  | ok certRecord =>
      rw [hread] at hboth
      exact ((h.mem_iff n).1 hmem).2 r hr hboth.1 certRecord hread (of_decide_eq_true hboth.2)

end LedgerImpl

end DLedger
