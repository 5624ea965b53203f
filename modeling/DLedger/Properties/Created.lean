import DLedger.Ledger.Core
import DLedger.Ledger.Sample

set_option autoImplicit false

/-! # What a successful `createRecord` leaves

`createRecord` returns success once the record has been inserted and announced. The eviction at the
end of `addToTailingRecord` comes before that: the new record goes with every tailing record that
it reaches by pointers and that has stayed unconfirmed for too long.
-/

namespace DLedger

open Tlv (Bytes Block)

namespace LedgerImpl

variable {σ : Type} {P : Peer σ} {amb : Ambient} {s s' : LedgerImpl σ} {record record' : Record}
  {n : Name} {code : ReturnCode} {db : Backend} {certManager : σ} {marked : Finset Name}
  {names : List Name} {mid : TailMap}

/-! ## The tail that a new record finds -/

/-- Whether the walk of a new record counts its producer at `x`. -/
def CountsAt (amb : Ambient) (record : Record) (n : Name) (s : LedgerImpl σ) (x : Name) : Prop :=
  Marks (insertedLookup s.tailRecords.lookup n (newEntry amb record true))
    (RecordName.getProducerPrefix n) n x

open Classical in
/-- The tail as it was, with the producer of the new record counted at its ancestors and without
those that are deep then. -/
noncomputable def countedTail (P : Peer σ) (amb : Ambient) (record : Record) (n : Name)
    (s : LedgerImpl σ) : Name → Option TailingRecordState := fun x =>
  ((s.tailRecords[x]?).map fun t =>
      if CountsAt amb record n s x then t.mark (RecordName.getProducerPrefix n) else t).filter
    fun t => decide (¬ (CountsAt amb record n s x ∧ IsDeep P t))

/-- The new record outlives its own insertion: neither it nor any tailing record that it reaches by
pointers has expired. A pointer that becomes deep is stored, or it is written now. -/
structure Outlives (P : Peer σ) (amb : Ambient) (record : Record) (n : Name) (s : LedgerImpl σ) :
    Prop where
  recent : ¬ Expired P.config amb (newEntry amb record true)
  ancestors : ∀ p ∈ record.recordPointers, ¬ Evicted (countedTail P amb record n s) P.config amb p
  stored : ∀ p ∈ record.recordPointers, ∀ t, s.tailRecords[p]? = some t →
    CountsAt amb record n s p → IsDeep P (t.mark (RecordName.getProducerPrefix n)) →
      (∃ d, s.backend.getRecord P.ndn p = some d) ∨ amb.putOk p = true ∧
        (t.mark (RecordName.getProducerPrefix n)).refSet.card = P.config.confirmWeight

open Classical in
theorem countedTail_eq_some {x : Name} {t' : TailingRecordState} :
    countedTail P amb record n s x = some t' ↔
      ∃ t, s.tailRecords[x]? = some t ∧ ¬ (CountsAt amb record n s x ∧ IsDeep P t') ∧
        (CountsAt amb record n s x → t' = t.mark (RecordName.getProducerPrefix n)) ∧
        (¬ CountsAt amb record n s x → t' = t) := by
  rw [countedTail, Option.filter_eq_some_iff, decide_eq_true_iff, Option.map_eq_some_iff]
  constructor
  · rintro ⟨⟨t, ht, rfl⟩, hdeep⟩
    exact ⟨t, ht, hdeep, fun hc => if_pos hc, fun hc => if_neg hc⟩
  · rintro ⟨t, ht, hdeep, hcounts, hnot⟩
    refine ⟨⟨t, ht, ?_⟩, hdeep⟩
    split_ifs with hc
    · exact (hcounts hc).symm
    · exact (hnot hc).symm

section Added

variable (h : Added P amb record true n s s' marked names mid) (hfresh : s.tailRecords[n]? = none)
include h

theorem Added.mem_marked_iff_countsAt (x : Name) : x ∈ marked ↔ CountsAt amb record n s x := by
  rw [h.mem_marked x, CountsAt]
  simp

/-- Before the eviction the tail has the new record beside the counted tail. -/
theorem Added.mid_of_ne {x : Name} (hx : n ≠ x) (t' : TailingRecordState) :
    mid[x]? = some t' ↔ countedTail P amb record n s x = some t' := by
  rw [h.mid_iff, countedTail_eq_some, ← h.mem_marked_iff_countsAt]
  constructor
  · rintro ⟨hwalked, hdeep⟩
    rcases h.walked_cases hwalked with ⟨heq, _⟩ | ⟨_, t, ht, rfl⟩
    · exact absurd heq hx
    · exact ⟨t, ht, hdeep, fun hm => if_pos hm, fun hm => if_neg hm⟩
  · rintro ⟨t, ht, hdeep, hmarked, hnot⟩
    refine ⟨?_, hdeep⟩
    rw [Added.walked_of_ne hx, ht, Option.map_some, Option.some.injEq]
    split_ifs with hm
    · exact (hmarked hm).symm
    · exact (hnot hm).symm

theorem Added.mid_self : mid[n]? = some (newEntry amb record true) :=
  (h.mid_iff n _).2 ⟨h.walked_self, fun hdeep => h.notMem_self hdeep.1⟩

include hfresh

/-- **The new record is evicted when it has expired itself, or one of its pointers is evicted from
the counted tail.** -/
theorem Added.evicted_self_iff : Evicted mid.lookup P.config amb n ↔
    Expired P.config amb (newEntry amb record true) ∨
      ∃ p ∈ record.recordPointers, Evicted (countedTail P amb record n s) P.config amb p := by
  have hsub : ∀ x t, countedTail P amb record n s x = some t → mid.lookup x = some t := by
    intro x t ht
    refine (h.mid_of_ne (fun hx => ?_) t).2 ht
    obtain ⟨u, hu, _⟩ := countedTail_eq_some.1 ht
    rw [← hx, hfresh] at hu
    cases hu
  constructor
  · -- a path that comes back to the new record can start there
    intro hevicted
    let lost := Expired P.config amb (newEntry amb record true) ∨
      ∃ p ∈ record.recordPointers, Evicted (countedTail P amb record n s) P.config amb p
    have hpath : lost ∨ n ≠ n ∧ Evicted (countedTail P amb record n s) P.config amb n := by
      refine hevicted.induction (motive := fun x _ =>
        lost ∨ n ≠ x ∧ Evicted (countedTail P amb record n s) P.config amb x) ?_ ?_ h.mid_self
      · intro x t ht hexpired
        by_cases hx : n = x
        · subst hx
          rw [TailMap.lookup, h.mid_self] at ht
          cases ht
          exact Or.inl (Or.inl hexpired)
        · exact Or.inr ⟨hx, Evicted.of_expired ((h.mid_of_ne hx t).1 ht) hexpired⟩
      · intro x t y u ht hu hy hlost
        rcases hlost with hlost | ⟨hny, hlost⟩
        · exact Or.inl hlost
        by_cases hx : n = x
        · subst hx
          rw [TailMap.lookup, h.mid_self] at ht
          cases ht
          exact Or.inl (Or.inr ⟨y, hy, hlost⟩)
        · exact Or.inr ⟨hx, hlost.of_pointer ((h.mid_of_ne hx t).1 ht)
            ((h.mid_of_ne hny u).1 hu) hy⟩
    exact hpath.resolve_right fun hself => hself.1 rfl
  · rintro (hexpired | ⟨p, hp, hevicted⟩)
    · exact Evicted.of_expired h.mid_self hexpired
    · obtain ⟨t, ht⟩ := hevicted.exists_lookup
      exact (hevicted.mono hsub).of_pointer h.mid_self (hsub p t ht) hp

end Added

/-! ## What is left -/

/-- A created record is in the ledger: as a verified tailing record, which `hasRecord` and
`getRecord` find, with each of its pointers in the tail or in the database. -/
structure InLedger (P : Peer σ) (s : LedgerImpl σ) (record : Record) (n : Name) : Prop where
  tail : ∃ t, s.tailRecords[n]? = some t ∧ t.parentEndorseVerified = true
  hasRecord : s.hasRecord P (P.ndn.toUri n) = true
  getRecord : ∃ r, s.getRecord P n = .ok (some r) ∧ r.data = record.data
  pointers : ∀ p ∈ record.recordPointers,
    (∃ t, s.tailRecords[p]? = some t) ∨ ∃ d, s.backend.getRecord P.ndn p = some d

/-- The tail and the database tell whether it is. -/
theorem inLedger_iff : InLedger P s record n ↔
    (∃ t, s.tailRecords[n]? = some t ∧ t.parentEndorseVerified = true ∧
      t.record.data = record.data) ∧
    ∀ p ∈ record.recordPointers,
      (∃ t, s.tailRecords[p]? = some t) ∨ ∃ d, s.backend.getRecord P.ndn p = some d := by
  constructor
  · rintro ⟨⟨t, ht, htv⟩, _, ⟨r, hr, hdata⟩, hpointers⟩
    refine ⟨⟨t, ht, htv, ?_⟩, hpointers⟩
    simp only [LedgerImpl.getRecord, ht, htv, if_true] at hr
    cases hr
    exact hdata
  · rintro ⟨⟨t, ht, htv, hdata⟩, hpointers⟩
    refine ⟨⟨t, ht, htv⟩, hasRecord_toUri.2 (Or.inl ⟨t, ht, htv⟩), ⟨t.record, ?_, hdata⟩, hpointers⟩
    simp only [LedgerImpl.getRecord, ht, htv, if_true]

/-- What is sent does not matter. -/
theorem inLedger_onlySends {events : List Event} (h : OnlySends P s s' events) :
    InLedger P s' record n ↔ InLedger P s record n := by
  rw [inLedger_iff, inLedger_iff, h.eq]

/-- A new record is in the ledger after its insertion when it outlives it. -/
theorem Addition.inLedger_iff (h : Addition P amb record true n s s' marked names mid)
    (hfresh : s.tailRecords[n]? = none)
    (hpointer : ∀ p ∈ record.recordPointers, ∃ t, s.tailRecords[p]? = some t) :
    InLedger P s' record n ↔ Outlives P amb record n s := by
  have hevicted := h.evicted_self_iff hfresh
  have htail : (∃ t, s'.tailRecords[n]? = some t ∧ t.parentEndorseVerified = true ∧
      t.record.data = record.data) ↔ ¬ Evicted mid.lookup P.config amb n := by
    constructor
    · rintro ⟨t, ht, _⟩
      exact ((h.tail_iff n t).1 ht).2
    · intro hkept
      exact ⟨_, (h.tail_iff n _).2 ⟨h.mid_self, hkept⟩, rfl, rfl⟩
  rw [LedgerImpl.inLedger_iff, htail, hevicted, not_or, not_exists]
  constructor
  · rintro ⟨⟨hrecent, hancestors⟩, hpointers⟩
    refine ⟨hrecent, fun p hp hlost => hancestors p ⟨hp, hlost⟩, fun p hp t ht hcounts hdeep => ?_⟩
    have hmarked := (h.mem_marked_iff_countsAt p).2 hcounts
    have hne : n ≠ p := fun heq => h.notMem_self (heq ▸ hmarked)
    have hwalked : walked amb record true n s.tailRecords.lookup marked p
        = some (t.mark (RecordName.getProducerPrefix n)) := by
      rw [Added.walked_of_ne hne, ht, Option.map_some, if_pos hmarked]
    rcases hpointers p hp with ⟨u, hu⟩ | hstored
    · -- a deep record is not in the tail any more
      obtain ⟨hmid, hnot⟩ := (h.mid_iff p u).1 ((h.tail_iff p u).1 hu).1
      rw [hwalked] at hmid
      cases hmid
      exact absurd ⟨hmarked, hdeep⟩ hnot
    · rcases h.stored_iff.1 hstored with hstored | ⟨hput, _, u, hu, hweight⟩
      · exact Or.inl hstored
      · rw [hwalked] at hu
        cases hu
        exact Or.inr ⟨hput, hweight⟩
  · rintro ⟨hrecent, hancestors, hstored⟩
    refine ⟨⟨hrecent, fun p hp => hancestors p hp.1 hp.2⟩, fun p hp => ?_⟩
    obtain ⟨t, ht⟩ := hpointer p hp
    have hne : n ≠ p := by
      rintro rfl
      rw [hfresh] at ht
      cases ht
    have hwalked : walked amb record true n s.tailRecords.lookup marked p
        = some (if p ∈ marked then t.mark (RecordName.getProducerPrefix n) else t) := by
      rw [Added.walked_of_ne hne, ht, Option.map_some]
    -- a pointer stays, is removed for its weight, or is evicted
    rcases h.tail_or hwalked with htail | ⟨hmarked, hdeep⟩ | ⟨hmid, hlost⟩
    · exact Or.inl ⟨_, htail⟩
    · right
      rw [if_pos hmarked] at hwalked hdeep
      refine h.stored_iff.2 ?_
      rcases hstored p hp t ht ((h.mem_marked_iff_countsAt p).1 hmarked) hdeep with
        hstored | ⟨hput, hweight⟩
      · exact Or.inl hstored
      · exact Or.inr ⟨hput, hmarked, _, hwalked, hweight⟩
    · -- an evicted pointer takes the new record with it
      have hself : Evicted mid.lookup P.config amb n := hlost.of_pointer h.mid_self hmid hp
      rcases hevicted.1 hself with hexpired | ⟨q, hq, hlost⟩
      · exact absurd hexpired hrecent
      · exact absurd hlost (hancestors q hq)

/-- **A record for which `createRecord` returns success is in the ledger exactly when its packet was
a verified tailing record already, or it is new to the tail and outlives its insertion.** -/
theorem created_inLedger_iff (h : RunsTo P db certManager (ReturnsNew P) s)
    (hfresh : record.Fresh P.ndn)
    (hrun : createRecord P amb record s = (s', record', .ok code)) (hcode : code.success = true) :
    ∃ built data, buildRecord P amb record s = (built, .ok (.ok data)) ∧
      record' = { built with data := some data } ∧
      code = .noError (P.ndn.toUri (P.ndn.fullName data)) ∧
      (InLedger P s' record' (P.ndn.fullName data) ↔
        (∃ t, s.tailRecords[P.ndn.fullName data]? = some t ∧ t.parentEndorseVerified = true ∧
          t.record.data = some data) ∨
        (s.tailRecords[P.ndn.fullName data]? = none ∧
          Outlives P amb record' (P.ndn.fullName data) s)) := by
  rcases createRecord_ok hrun with ⟨hbuild, _⟩ | ⟨built, data, s₁, hbuild, rfl, hadd, rfl, hname⟩
  · rw [buildRecord_error hfresh.data_eq hbuild] at hcode
    cases hcode
  refine ⟨built, data, hbuild, rfl, hname hcode, ?_⟩
  have hbuilt := buildRecord_built hfresh hbuild
  have hpointer : ∀ p ∈ ({ built with data := some data } : Record).recordPointers,
      ∃ t, s.tailRecords[p]? = some t := by
    intro p hp
    obtain ⟨t, ht, _⟩ := hbuilt.pointer p hp
    exact ⟨t, ht⟩
  obtain ⟨events, hsends⟩ := sendSyncInterest_sends P amb s₁
  rw [inLedger_onlySends hsends]
  cases htail : s.tailRecords[P.ndn.fullName data]? with
  | some t =>
      -- the packet is a tailing record already, nothing is added
      rw [addToTailingRecord_of_tail rfl htail] at hadd
      cases hadd
      rw [inLedger_iff, htail]
      constructor
      · rintro ⟨hheld, _⟩
        exact Or.inl hheld
      · rintro (hheld | ⟨hnone, _⟩)
        · exact ⟨hheld, fun p hp => Or.inl (hpointer p hp)⟩
        · cases hnone
  | none =>
      obtain ⟨marked, names, mid, hadded⟩ := h.core.tail.addition_built hbuilt htail hadd
      rw [hadded.inLedger_iff htail hpointer]
      constructor
      · intro hlives
        exact Or.inr ⟨rfl, hlives⟩
      · rintro (⟨t, ht, _⟩ | ⟨_, hlives⟩)
        · cases ht
        · exact hlives

/-- A peer that asks for three confirmations creates a record at once, or when its genesis record
has expired. -/
def createdAt (now : Int) : LedgerImpl Unit × Record × Except Fault ReturnCode :=
  createRecord (Sample.peer (Sample.config 1 5 3)) { Sample.ambient with now } Sample.freshRecord
    (Sample.run (Sample.peer (Sample.config 1 5 3)) () []).1

theorem created_inLedger_iff_atOnce :
    let P := Sample.peer (Sample.config 1 5 3)
    let s := (Sample.run P () []).1
    ∃ built data, buildRecord P Sample.ambient Sample.freshRecord s = (built, .ok (.ok data)) ∧
      (InLedger P (createdAt 0).1 { built with data := some data } (P.ndn.fullName data) ↔
        (∃ t, s.tailRecords[P.ndn.fullName data]? = some t ∧ t.parentEndorseVerified = true ∧
          t.record.data = some data) ∨
        (s.tailRecords[P.ndn.fullName data]? = none ∧
          Outlives P Sample.ambient { built with data := some data } (P.ndn.fullName data) s)) := by
  intro P s
  have hruns : RunsTo P Backend.empty () (ReturnsNew P) s := by
    refine Sample.runsTo_run (fun _ data hdata => ?_) (by decide +kernel)
    exact absurd hdata List.not_mem_nil
  obtain ⟨code, hcall, hcode⟩ := exists_success (createdAt 0) (by decide +kernel)
  obtain ⟨built, data, hbuild, hrecord, _, hiff⟩ :=
    created_inLedger_iff hruns Sample.freshRecord_fresh hcall hcode
  rw [hrecord] at hiff
  exact ⟨built, data, hbuild, hiff⟩

/-- **A record that is created on an expired genesis record is evicted with it**, and
`createRecord` returns success. -/
theorem not_created_inLedger_late :
    let P := Sample.peer (Sample.config 1 5 3)
    ¬ ∀ (s s' : LedgerImpl Unit) (amb : Ambient) (record record' : Record) (code : ReturnCode),
      Reachable P Backend.empty () s → record.Fresh P.ndn →
      createRecord P amb record s = (s', record', .ok code) → code.success = true →
      InLedger P s' record' (record'.getRecordName P.ndn) := by
  intro P hall
  have hreach : Reachable P Backend.empty () (Sample.run P () []).1 :=
    Sample.reachable_run (by decide +kernel)
  obtain ⟨code, hcall, hcode⟩ := exists_success (createdAt 5000) (by decide +kernel)
  have hledger := hall _ _ _ _ _ code hreach Sample.freshRecord_fresh hcall hcode
  obtain ⟨t, ht, _⟩ := hledger.tail
  have hempty : (createdAt 5000).1.tailRecords.isEmpty = true := by decide +kernel
  rw [Std.TreeMap.getElem?_of_isEmpty hempty] at ht
  cases ht

end LedgerImpl

end DLedger
