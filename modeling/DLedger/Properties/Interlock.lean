import DLedger.Ledger.Create
import DLedger.Ledger.Sample

set_option autoImplicit false

/-! # The candidates of a new record

`createRecord` leaves out the tailing records whose name is under the peer's own prefix, and a
peer that receives the record leaves out the ones whose producer is the creator. The first test
is wider: it also excludes the records of the producers whose names extend that of the peer.
-/

namespace DLedger

namespace LedgerImpl

variable {σ : Type} {P : Peer σ} {amb : Ambient} {s : LedgerImpl σ} {record : Record}

/-- The verified tailing records of at most `appendWeight` that come from another producer. -/
def otherProducers (P : Peer σ) (s : LedgerImpl σ) : List Name :=
  (s.tailRecords.toList.filter fun (name, state) =>
    state.parentEndorseVerified && state.refSet.card ≤ P.config.appendWeight
      && RecordName.getProducerPrefix name != P.config.peerPrefix).map Prod.fst

/-- Those of them that are named under the prefix of the peer. -/
def nested (P : Peer σ) (s : LedgerImpl σ) : List Name :=
  (otherProducers P s).filter fun name => P.config.peerPrefix.isPrefixOf name

/-- The producer of a name that is not under a prefix is another one. -/
theorem getProducerPrefix_ne {p n : Name} (h : p.isPrefixOf n = false) :
    RecordName.getProducerPrefix n ≠ p := by
  rintro rfl
  rw [RecordName.getProducerPrefix, Name.getPrefix_isPrefixOf] at h
  cases h

/-- The candidates are the records of other producers that are not nested. -/
theorem recordList_map_fst : (recordList P s).map Prod.fst
    = (otherProducers P s).filter fun name => !P.config.peerPrefix.isPrefixOf name := by
  rw [recordList, otherProducers, List.map_map, List.filter_map, List.filter_filter]
  refine congrArg _ (List.filter_congr fun entry _ => ?_)
  cases hpre : P.config.peerPrefix.isPrefixOf entry.1 with
  | true => simp [hpre]
  | false =>
      have hother := bne_iff_ne.2 (getProducerPrefix_ne hpre)
      simp [hpre, hother, Bool.and_comm]

theorem length_recordList :
    (nested P s).length + (recordList P s).length = (otherProducers P s).length := by
  have hlen := congrArg List.length (recordList_map_fst (P := P) (s := s))
  rw [List.length_map] at hlen
  rw [hlen, nested]
  exact (List.length_eq_length_filter_add _).symm

/-- An authorized peer gets this error when it has too few candidates, and only then. -/
theorem createRecord_notEnough_iff (hdata : record.data = none)
    (hauth : P.certManager.authorizedToGenerate s.certManager = true)
    (hne : s.tailRecords.isEmpty = false) :
    (createRecord P amb record s).2.2 = .ok .notEnoughTailingRecord ↔
      (recordList P s).length < P.config.precedingRecordNum := by
  have hbuild := buildRecord_eq P amb s hdata
  rw [if_neg (by rw [hne]; decide), if_neg (by rw [hauth]; decide)] at hbuild
  by_cases hnum : (recordList P s).length < P.config.precedingRecordNum
  · rw [if_pos hnum] at hbuild
    rw [createRecord_of_error hbuild]
    exact iff_of_true rfl hnum
  · rw [if_neg hnum] at hbuild
    -- behind the count no exit has this code
    refine iff_of_false ?_ hnum
    rw [createRecord, hbuild, signRecord]
    dsimp only
    cases (withPointers P amb s (withCerts s record)).wireEncode with
    | error e => simp
    | ok content =>
        dsimp only
        cases amb.signData (generateRecordName P.ndn P.config.peerPrefix
          (withPointers P amb s (withCerts s record)) amb.now) content with
        | error reason => simp
        | ok signature =>
            dsimp only
            split
            · simp
            · unfold sendSyncInterest
              cases amb.signInterest <;> simp

/-- **An authorized peer is told that there are not enough tailing records only when there are
not enough of other producers, exactly when there are too few of them or enough that are not
nested.** -/
theorem interlock_iff (hdata : record.data = none)
    (hauth : P.certManager.authorizedToGenerate s.certManager = true) :
    ((createRecord P amb record s).2.2 = .ok .notEnoughTailingRecord →
      (otherProducers P s).length < P.config.precedingRecordNum) ↔
      (otherProducers P s).length < P.config.precedingRecordNum ∨
        (nested P s).length + P.config.precedingRecordNum ≤ (otherProducers P s).length := by
  have hlen := length_recordList (P := P) (s := s)
  cases hempty : s.tailRecords.isEmpty with
  | true =>
      have hcode : (createRecord P amb record s).2.2 = .ok .noTailingRecord := by
        have hbuild := buildRecord_eq P amb s hdata
        rw [if_pos hempty] at hbuild
        rw [createRecord_of_error hbuild]
      have hlist : s.tailRecords.toList = [] :=
        List.isEmpty_iff.1 (Std.TreeMap.isEmpty_toList.trans hempty)
      have hothers : (otherProducers P s).length = 0 := by
        rw [otherProducers, hlist]
        rfl
      rw [hcode]
      refine iff_of_true (fun h => ?_) (by omega)
      cases h
  | false =>
      rw [createRecord_notEnough_iff hdata hauth hempty]
      omega

/-- A peer `/a` that only points to records of weight zero. -/
def anchorPeer : Peer Unit :=
  Sample.peer { Sample.config 1 5 3 with appendWeight := 0, peerPrefix := [.generic [97]] }

/-- A packet of the producer `/a/b`. -/
def nestedPacket : Data :=
  let packet := Sample.packet 98 0 [Sample.genesis]
  { packet with name := .generic [97] :: packet.name }

/-- Beside a record of `/a/b` there is one of another producer, and that is enough. -/
theorem interlock_iff_nestedPacket :
    let s := (Sample.run anchorPeer () [nestedPacket, Sample.packet 99 0 [Sample.genesis]]).1
    (nested anchorPeer s).length = 1 ∧ (otherProducers anchorPeer s).length = 2 ∧
      (createRecord anchorPeer Sample.ambient Sample.freshRecord s).2.2
        ≠ .ok .notEnoughTailingRecord := by
  intro s
  have hnested : (nested anchorPeer s).length = 1 := by decide +kernel
  have hothers : (otherProducers anchorPeer s).length = 2 := by decide +kernel
  refine ⟨hnested, hothers, fun herror => ?_⟩
  have hfew := (interlock_iff (P := anchorPeer) rfl rfl).2
    (Or.inr (by rw [hnested, hothers]; decide)) herror
  rw [hothers] at hfew
  exact absurd hfew (by decide)

/-- **The peer `/a` cannot build on a record of `/a/b`**, the only one of weight zero. -/
theorem not_interlock_nestedPacket :
    ¬ ∀ (s : LedgerImpl Unit) (amb : Ambient) (record : Record),
      Reachable anchorPeer Backend.empty () s → record.Fresh anchorPeer.ndn →
      anchorPeer.certManager.authorizedToGenerate s.certManager = true →
      (createRecord anchorPeer amb record s).2.2 = .ok .notEnoughTailingRecord →
      (otherProducers anchorPeer s).length < anchorPeer.config.precedingRecordNum := by
  intro hall
  have hreach : Reachable anchorPeer Backend.empty ()
      (Sample.run anchorPeer () [nestedPacket]).1 :=
    Sample.reachable_run (by decide +kernel)
  have hone := hall _ Sample.ambient { type := .genericRecord, uniqueIdentifier := [49] } hreach
    ⟨rfl, rfl, by decide, by decide +kernel⟩ rfl (by decide +kernel)
  revert hone
  decide +kernel

end LedgerImpl

end DLedger
