import DLedger.Ledger.Sample

set_option autoImplicit false

/-! # Genesis records

A peer makes the genesis records itself and never accepts one from the network. A genesis record
leaves the tail when it is deep, and then it is stored, or by eviction, and then it is lost: a
genesis record is evicted like any other one that stays unconfirmed for too long.
-/

namespace DLedger

open Tlv (Bytes Block)

namespace LedgerImpl

variable {σ : Type} {P : Peer σ} {amb : Ambient} {s s' : LedgerImpl σ} {record : Record}
  {endorseVerified : Bool} {n g : Name} {marked : Finset Name} {names : List Name}
  {mid : TailMap}

/-- The genesis records by their names. -/
def IsGenesis (n : Name) (_endorsed : Bool) : Prop := RecordName.getRecordType n = .genesisRecord

/-- A genesis record is known, and as an endorsed record while it is in the tail. -/
structure Kept (P : Peer σ) (g : Name) (s : LedgerImpl σ) : Prop where
  seen : s.seenRecord P g = true
  endorsed : ∀ t, s.tailRecords[g]? = some t → t.recordEndorseVerified = true

theorem Kept.congr (h : Kept P g s) (hsame : SameRecords s s') : Kept P g s' := by
  refine ⟨?_, ?_⟩
  · rw [seenRecord, hsame.tailRecords, hsame.backend]
    exact h.seen
  · rw [hsame.tailRecords]
    exact h.endorsed

section Step

variable (htimeout : 0 ≤ P.config.blockConfirmationTimeout)
  (hfresh : NoneExpired P IsGenesis amb s)
  (h : Added P amb record endorseVerified n s s' marked names mid)
  (hsound : TailSound P.ndn (walked amb record endorseVerified n s.tailRecords.lookup marked))
include htimeout hfresh h hsound

/-- A genesis record that is not expired is not evicted: it points to nothing. -/
theorem NoneExpired.genesis_not_evicted (hg : RecordName.getRecordType g = .genesisRecord)
    {t : TailingRecordState} (ht : mid[g]? = some t) (hv : t.recordEndorseVerified = true) :
    ¬ Evicted mid.lookup P.config amb g := by
  have hwalked := ((h.mid_iff g t).1 ht).1
  rintro ⟨y, u, hy, hexp, hpath⟩
  rcases Relation.ReflTransGen.cases_head hpath with rfl | ⟨z, ⟨t', ht', hz, _⟩, _⟩
  · exact hfresh.not_expired htimeout h ((h.mid_iff g u).1 hy).1 hg hexp
  · rw [show mid[g]? = some t' from ht'] at ht
    cases ht
    rw [hsound.genesis g t hwalked hv hg] at hz
    exact List.not_mem_nil hz

/-- **A call keeps a genesis record** where no genesis record is expired. -/
theorem Kept.added (hpos : 1 ≤ P.config.confirmWeight) (hsmall : P.config.SmallWeights)
    (hput : ∀ m, amb.putOk m = true) (hs : TailInv P s)
    (hg : RecordName.getRecordType g = .genesisRecord) (hkept : Kept P g s) (hne : n ≠ g) :
    Kept P g s' where
  seen := by
    rcases seenRecord_iff.1 hkept.seen with ⟨t, ht⟩ | ⟨d, hd⟩
    · have hwalked : walked amb record endorseVerified n s.tailRecords.lookup marked g
          = some (if g ∈ marked then t.mark (RecordName.getProducerPrefix n) else t) := by
        rw [Added.walked_of_ne hne, ht, Option.map_some]
      rcases h.tail_or hwalked with htail | ⟨_, hdeep⟩ | ⟨hmid, hevicted⟩
      · exact seenRecord_iff.2 (Or.inl ⟨_, htail⟩)
      · obtain ⟨d, hd, _⟩ := (h.named g _ hwalked).exists_data
        exact seenRecord_iff.2 (Or.inr ⟨d, (h.stored_of_le hpos hput hs hwalked
          (hsmall.confirmWeight_le.trans hdeep.2)).trans hd⟩)
      · refine absurd hevicted (hfresh.genesis_not_evicted htimeout h hsound hg hmid ?_)
        rw [ite_mark_recordEndorseVerified]
        exact hkept.endorsed t ht
    · exact seenRecord_iff.2 (Or.inr (h.backend_mono hd))
  endorsed t' ht' := by
    rcases h.walked_cases (h.walked_of_tail ht') with ⟨heq, _⟩ | ⟨_, t, ht, rfl⟩
    · exact absurd heq hne
    · rw [ite_mark_recordEndorseVerified]
      exact hkept.endorsed t ht

/-- An endorsed new genesis record is kept. -/
theorem NoneExpired.kept_new (hg : RecordName.getRecordType n = .genesisRecord)
    (he : endorseVerified = true) : Kept P n s' := by
  have htail : s'.tailRecords[n]? = some (newEntry amb record endorseVerified) := by
    rcases h.tail_or h.walked_self with htail | ⟨hmarked, _⟩ | ⟨hmid, hevicted⟩
    · exact htail
    · exact absurd hmarked h.notMem_self
    · exact absurd hevicted (hfresh.genesis_not_evicted htimeout h hsound hg hmid he)
  refine ⟨seenRecord_iff.2 (Or.inl ⟨_, htail⟩), fun t ht => ?_⟩
  rw [htail] at ht
  cases ht
  exact he

end Step

/-! ## The genesis records of the constructor -/

section Runs

variable (hpos : 1 ≤ P.config.confirmWeight) (hsmall : P.config.SmallWeights)
  (htimeout : 0 ≤ P.config.blockConfirmationTimeout)
include hpos hsmall htimeout

/-- Every genesis record of the constructor is kept to its end: they are all new. -/
theorem construct_kept {db : Backend} {certManager : σ} (hput : Ambient.Writes amb)
    (h : construct P amb db certManager = (s, .ok ())) {i : Nat}
    (hi : i < P.config.numGenesisBlock) {record : Record} (hdata : genesisData P i = .ok record) :
    RecordName.getRecordType (record.getRecordName P.ndn) = .genesisRecord ∧
      Kept P (record.getRecordName P.ndn) s := by
  have hstep : ∀ i, ∀ a b : LedgerImpl σ,
      GenesisPhase P db certManager a ∧ NoneExpired P IsGenesis amb a →
      addGenesis P amb i a = (b, .ok ()) →
      (GenesisPhase P db certManager b ∧ NoneExpired P IsGenesis amb b) ∧
        (∀ record, genesisData P i = .ok record →
          RecordName.getRecordType (record.getRecordName P.ndn) = .genesisRecord ∧
            Kept P (record.getRecordName P.ndn) b) ∧
        ∀ g, RecordName.getRecordType g = .genesisRecord → Kept P g a → Kept P g b := by
    rintro i a b ⟨ha, hfresh⟩ hadd
    obtain ⟨record, n, hdata, hname, hcases⟩ := addGenesis_added ha.inv.sound ha.pointerless hadd
    rcases hcases with ⟨rfl, t, ht⟩ | ⟨marked, names, mid, htype, hp, hr, hadded⟩
    · -- it is a tailing record already
      obtain ⟨htype, hv⟩ := ha.type_eq n t ht
      refine ⟨⟨ha, hfresh⟩, fun record' hdata' => ?_, fun g _ hkept => hkept⟩
      rw [hdata] at hdata'
      cases hdata'
      rw [hname]
      refine ⟨?_, seenRecord_iff.2 (Or.inl ⟨t, ht⟩), fun u hu => (ha.type_eq n u hu).2⟩
      exact ((ha.inv.sound.named n t ht).type_eq (ha.inv.sound.name n t ht hv)).symm.trans htype
    · have hsound := hadded.sound ha.inv.sound hr fun _ _ => hp
      have hgenesis : RecordName.getRecordType n = .genesisRecord :=
        (hr.named.type_eq (hr.name rfl)).symm.trans htype
      have hnew := hfresh.kept_new htimeout hadded hsound hgenesis rfl
      refine ⟨⟨ha.added hpos hsmall hput htype hp hr hadded, hfresh.added htimeout hadded⟩,
        fun record' hdata' => ?_, fun g hg hkept => ?_⟩
      · rw [hdata] at hdata'
        cases hdata'
        rw [hname]
        exact ⟨hgenesis, hnew⟩
      · by_cases hne : n = g
        · exact hne ▸ hnew
        · exact hkept.added htimeout hfresh hadded hsound hpos hsmall hput ha.inv hg hne
  obtain ⟨_, s₁, hrun, rfl⟩ := construct_ok h
  -- each round keeps what the rounds before have added, so all of it is there at the end
  have hall := Outcome.forEach_ok_forall
    (fun s => GenesisPhase P db certManager s ∧ NoneExpired P IsGenesis amb s)
    (fun i s => ∀ record, genesisData P i = .ok record →
      RecordName.getRecordType (record.getRecordName P.ndn) = .genesisRecord ∧
        Kept P (record.getRecordName P.ndn) s)
    (fun i _ a b hab hadd => by
      obtain ⟨hI, hi, hkeep⟩ := hstep i a b hab hadd
      exact ⟨hI, hi, fun j hj record hdata =>
        ⟨(hj record hdata).1, hkeep _ (hj record hdata).1 (hj record hdata).2⟩⟩)
    ⟨genesisPhase_blank db certManager, noneExpired_blank db certManager⟩ hrun
  obtain ⟨hg, hkept⟩ := hall i (List.mem_range.2 hi) record hdata
  exact ⟨hg, hkept.congr (sendSyncInterest_sameRecords s₁)⟩

/-- **No genesis record is lost, and none is ever asked for, in the runs in which no genesis
record in the tail is expired when a call may add records.** -/
theorem genesis_kept {db : Backend} {certManager : σ}
    (h : ReachableBy P db certManager (Unexpired P IsGenesis) s) {i : Nat}
    (hi : i < P.config.numGenesisBlock) {record : Record} (hdata : genesisData P i = .ok record) :
    s.seenRecord P (record.getRecordName P.ndn) = true ∧
      record.getRecordName P.ndn ∉ s.fetched := by
  have hkept : ∀ {s}, ReachableBy P db certManager (Unexpired P IsGenesis) s →
      RecordName.getRecordType (record.getRecordName P.ndn) = .genesisRecord ∧
        Kept P (record.getRecordName P.ndn) s := by
    intro s h
    refine h.unexpired_induction hpos hsmall htimeout
      (fun amb s hput hstart => construct_kept hpos hsmall htimeout hput hstart hi hdata)
      (fun a b ha hab => ⟨ha.1, ha.2.congr hab⟩) ?_
    rintro amb record' e n a b marked names mid hput ha hfresh ⟨hg, hkept⟩ hins
    have hsound := hins.sound ha.sound hins.ready hins.genesis
    refine ⟨hg, hkept.added htimeout hfresh hins.toAdded hsound hpos hsmall hput ha hg ?_⟩
    rintro rfl
    have hunseen := seenRecord_eq_false.2 ⟨hins.ready.fresh, hins.unstored⟩
    rw [hkept.seen] at hunseen
    cases hunseen
  -- only unseen names are asked for, and this one is seen before each call
  refine ⟨(hkept h).2.seen, ?_⟩
  induction h with
  | @start amb s writes hstart =>
      have hnone : s.fetched = [] := by
        have hnothing := (construct_asksNothing P amb db certManager).holds
        rw [hstart] at hnothing
        exact hnothing
      rw [hnone]
      exact List.not_mem_nil
  | @step a b c ha admissible unexpired hrun ih =>
      obtain ⟨new, hnew, hunseen, _⟩ := call_asks (P := P) c a
      rw [hrun] at hnew
      rw [hnew, List.mem_append, not_or]
      refine ⟨fun hmem => ?_, ih⟩
      have hseen := (hkept ha).2.seen
      rw [hunseen _ hmem] at hseen
      cases hseen

end Runs

/-- The genesis record of the small ledger. -/
theorem genesisData_sample :
    ∃ record, genesisData (Sample.peer (Sample.config 1 5 3)) 0 = .ok record ∧
      record.getRecordName Sample.ndn = Sample.genesis :=
  ⟨_, rfl, by decide +kernel⟩

/-- Two late records on the genesis record. -/
def lateOnGenesis : List (Int × Data) :=
  [(5000, Sample.packet 97 0 [Sample.genesis]), (5000, Sample.packet 98 0 [Sample.genesis])]

/-- **A late record evicts the unconfirmed genesis record with itself**, and the next record
makes the peer ask for it. -/
theorem genesis_lost_lateOnGenesis :
    let P := Sample.peer (Sample.config 1 5 3)
    (1 ≤ P.config.confirmWeight ∧ ¬ ∀ s, Reachable P Backend.empty () s →
      ∀ i < P.config.numGenesisBlock, ∀ record, genesisData P i = .ok record →
        s.seenRecord P (record.getRecordName P.ndn) = true) ∧
      ∃ s, Reachable P Backend.empty () s ∧ Sample.genesis ∈ s.fetched := by
  intro P
  have hreach : Reachable P Backend.empty () (Sample.runAt P () lateOnGenesis).1 :=
    Sample.reachable_runAt (by decide +kernel)
  refine ⟨⟨by decide, fun hall => ?_⟩, _, hreach, by decide +kernel⟩
  obtain ⟨record, hdata, hname⟩ := genesisData_sample
  have hseen := hall _ hreach 0 (by decide) record hdata
  have hlost : (Sample.runAt P () lateOnGenesis).1.seenRecord P Sample.genesis = false := by
    decide +kernel
  rw [show P.ndn = Sample.ndn from rfl, hname] at hseen
  exact absurd hseen (by rw [hlost]; simp)

theorem genesis_kept_first :
    let P := Sample.peer (Sample.config 1 5 3)
    let s := (onFetchedRecord P Sample.ambient (Sample.packet 97 0 [Sample.genesis])
      (construct P Sample.ambient Backend.empty ()).1).1
    ∃ record, genesisData P 0 = .ok record ∧
      s.seenRecord P (record.getRecordName P.ndn) = true ∧
        record.getRecordName P.ndn ∉ s.fetched := by
  intro P s
  obtain ⟨record, hdata, _⟩ := genesisData_sample
  have hreach : ReachableBy P Backend.empty () (Unexpired P IsGenesis) s :=
    Sample.reachableBy_first (by decide +kernel) (by decide +kernel) (by decide)
      (by decide +kernel)
  clear_value s
  exact ⟨record, hdata, genesis_kept (P := P) (by decide)
    (Sample.smallWeights (by decide) (by decide)) (by decide) hreach (by decide) hdata⟩

end LedgerImpl

end DLedger
