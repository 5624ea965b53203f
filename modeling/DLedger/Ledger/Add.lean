import DLedger.Ledger.Walk
import DLedger.Ledger.Confirm

set_option autoImplicit false

/-! # What adding a record does

`Added` says all that a successful `addToTailingRecord` changes: the new entry, the producer
counted at the records that the walk reaches, the crossing records confirmed in the order of
their names, the deep records removed, and what is evicted at the end.
-/

namespace DLedger

open Tlv (Bytes Block)

/-- The entry of a new record whose pointers are all verified. -/
def newEntry (amb : Ambient) (record : Record) (endorseVerified : Bool) : TailingRecordState where
  parentEndorseVerified := endorseVerified
  refSet := ∅
  recordEndorseVerified := endorseVerified
  record := record
  addedTime := amb.now

/-- The tail with a new entry. -/
def insertedLookup (lookup : Name → Option TailingRecordState) (n : Name)
    (entry : TailingRecordState) : Name → Option TailingRecordState :=
  fun x => if n = x then some entry else lookup x

/-- The tail with a producer counted at the marked records. -/
def markedLookup (lookup : Name → Option TailingRecordState) (producer : Name)
    (marked : Finset Name) : Name → Option TailingRecordState :=
  fun x => (lookup x).map fun t => if x ∈ marked then t.mark producer else t

/-- The tail after the walk of a new record. -/
def walked (amb : Ambient) (record : Record) (endorseVerified : Bool) (n : Name)
    (lookup : Name → Option TailingRecordState) (marked : Finset Name) :
    Name → Option TailingRecordState :=
  markedLookup (insertedLookup lookup n (newEntry amb record endorseVerified))
    (RecordName.getProducerPrefix n) marked

namespace LedgerImpl

variable {σ : Type}

/-- When a record can be added: it is not in the tail, the tailing records at its pointers
are verified, and the names of an endorsed record and of its pointers are record names. -/
structure AddReady (P : Peer σ) (s : LedgerImpl σ) (record : Record) (endorseVerified : Bool)
    (n : Name) : Prop where
  named : Record.Named P.ndn n record
  name : endorseVerified = true → RecordName.check n = .ok ()
  fresh : s.tailRecords[n]? = none
  verified : ∀ p ∈ record.recordPointers, ∀ t, s.tailRecords[p]? = some t →
    t.parentEndorseVerified = true
  pointerName : endorseVerified = true → ∀ p ∈ record.recordPointers, RecordName.check p = .ok ()
  unpointed : ∀ (m : Name) (t : TailingRecordState), s.tailRecords[m]? = some t →
    n ∉ t.record.recordPointers

/-- The records that a call confirms, when its walk marks `marked`, listed as `names`. -/
def confirmedRecords (P : Peer σ) (amb : Ambient) (record : Record) (endorseVerified : Bool)
    (n : Name) (s : LedgerImpl σ) (marked : Finset Name) (names : List Name) : List Record :=
  crossing (walked amb record endorseVerified n s.tailRecords.lookup marked)
    P.config.confirmWeight names

/-- What a successful call changes. `marked` are the records that count the producer from now
on, `names` lists them in order, and `mid` is the tail before the eviction. -/
structure Added (P : Peer σ) (amb : Ambient) (record : Record) (endorseVerified : Bool)
    (n : Name) (s s' : LedgerImpl σ) (marked : Finset Name) (names : List Name)
    (mid : TailMap) : Prop where
  mem_marked : ∀ x, x ∈ marked ↔ endorseVerified = true ∧
    Marks (insertedLookup s.tailRecords.lookup n (newEntry amb record endorseVerified))
      (RecordName.getProducerPrefix n) n x
  mem_names : ∀ x, x ∈ names ↔ x ∈ marked
  sorted : names.Pairwise fun x y => compare x y = .lt
  named : ∀ x t, walked amb record endorseVerified n s.tailRecords.lookup marked x = some t →
    Record.Named P.ndn x t.record
  mid_iff : ∀ (x : Name) (t : TailingRecordState), mid[x]? = some t ↔
    walked amb record endorseVerified n s.tailRecords.lookup marked x = some t ∧
      ¬ (x ∈ marked ∧ IsDeep P t)
  tail_iff : ∀ (x : Name) (t : TailingRecordState), s'.tailRecords[x]? = some t ↔
    mid[x]? = some t ∧ ¬ Evicted mid.lookup P.config amb x
  rest : s' = (confirmAll P amb
      (confirmedRecords P amb record endorseVerified n s marked names)
      (s.emit (.inserted record endorseVerified))).withTail s'.tailRecords

/-- The ledger with the entry of a new record, before the walk. -/
abbrev withNew (amb : Ambient) (record : Record) (endorseVerified : Bool) (n : Name)
    (s : LedgerImpl σ) : LedgerImpl σ :=
  (s.emit (.inserted record endorseVerified)).setTail n (newEntry amb record endorseVerified)

variable {P : Peer σ} {amb : Ambient} {s : LedgerImpl σ} {record : Record}
  {endorseVerified : Bool} {n : Name}

theorem AddReady.pointersVerified (h : AddReady P s record endorseVerified n) :
    pointersVerified record s = true := by
  rw [LedgerImpl.pointersVerified, List.all_eq_true]
  intro p hp
  cases ht : s.tailRecords[p]? with
  | none => rfl
  | some t => exact h.verified p hp t ht

theorem insertRecord_eq (hn : record.getRecordName P.ndn = n)
    (hv : pointersVerified record s = true) :
    insertRecord P amb record endorseVerified s = withNew amb record endorseVerified n s := by
  simp only [insertRecord, hv, Bool.and_true, hn, newEntry, withNew]

theorem AddReady.insertRecord_eq (h : AddReady P s record endorseVerified n) :
    insertRecord P amb record endorseVerified s = withNew amb record endorseVerified n s :=
  LedgerImpl.insertRecord_eq h.named.getRecordName h.pointersVerified

/-- The tail stays walkable when a record is added. -/
theorem AddReady.walkable (h : AddReady P s record endorseVerified n)
    (hw : Walkable s.tailRecords.lookup) :
    Walkable (insertedLookup s.tailRecords.lookup n (newEntry amb record endorseVerified)) := by
  -- `insertedLookup` at the new name, and elsewhere
  have hcase : ∀ m t, insertedLookup s.tailRecords.lookup n
      (newEntry amb record endorseVerified) m = some t →
      (m = n ∧ t = newEntry amb record endorseVerified) ∨ s.tailRecords[m]? = some t := by
    intro m t ht
    unfold insertedLookup at ht
    split_ifs at ht with hm
    · cases ht
      exact Or.inl ⟨hm.symm, rfl⟩
    · exact Or.inr ht
  constructor
  · intro m t ht hv
    rcases hcase m t ht with ⟨rfl, rfl⟩ | ht'
    · exact h.name hv
    · exact hw.name m t ht' hv
  · intro m t ht hv
    rcases hcase m t ht with ⟨rfl, rfl⟩ | ht'
    · exact h.pointerName hv
    · exact hw.pointerName m t ht' hv
  · intro m t ht hv p hp u hu
    rcases hcase m t ht with ⟨rfl, rfl⟩ | ht'
    · rcases hcase p u hu with ⟨_, rfl⟩ | hu'
      · exact hv
      · exact h.verified p hp u hu'
    · rcases hcase p u hu with ⟨rfl, _⟩ | hu'
      · exact absurd hp (h.unpointed m t ht')
      · exact hw.pointer m t ht' hv p hp u hu'

theorem insertedLookup_setTail (s : LedgerImpl σ) (n : Name) (entry : TailingRecordState) :
    (s.setTail n entry).tailRecords.lookup = insertedLookup s.tailRecords.lookup n entry := by
  funext x
  exact setTail_getElem? s n x entry

/-- What the walk of `addToTailingRecord` leaves; it starts with an endorsed record only. -/
structure NewWalk (P : Peer σ) (amb : Ambient) (record : Record) (endorseVerified : Bool)
    (n : Name) (s : LedgerImpl σ) (w : WalkState σ) (marked : Finset Name) : Prop where
  mem_marked : ∀ x, x ∈ marked ↔ endorseVerified = true ∧
    Marks (insertedLookup s.tailRecords.lookup n (newEntry amb record endorseVerified))
      (RecordName.getProducerPrefix n) n x
  updated : ∀ x, x ∈ w.updatedRecords ↔ x ∈ marked
  tail : w.ledger.tailRecords.lookup
    = walked amb record endorseVerified n s.tailRecords.lookup marked
  rest : w.ledger = (s.emit (.inserted record endorseVerified)).withTail w.ledger.tailRecords
  passed : ∀ x ∈ marked,
    Passed (insertedLookup s.tailRecords.lookup n (newEntry amb record endorseVerified)) x

theorem newWalk_of_returns (hn : Record.Named P.ndn n record)
    (hname : endorseVerified = true → RecordName.check n = .ok ()) {w : WalkState σ}
    (hrun : weightWalk P record ((withNew amb record endorseVerified n s).tailRecords.size + 1)
      (walkStart P record endorseVerified (withNew amb record endorseVerified n s)) = (w, .ok ())) :
    ∃ marked, NewWalk P amb record endorseVerified n s w marked := by
  have hlookup : (withNew amb record endorseVerified n s).tailRecords.lookup
      = insertedLookup s.tailRecords.lookup n (newEntry amb record endorseVerified) :=
    insertedLookup_setTail _ n _
  -- the walk of a record that is not endorsed has an empty stack
  cases endorseVerified with
  | false =>
      simp only [walkStart, Bool.false_eq_true, if_false, weightWalk] at hrun
      cases hrun
      refine ⟨∅, ?_, ?_, ?_, rfl, ?_⟩
      · intro x; simp
      · intro x; simp
      · rw [hlookup]
        funext x
        simp [walked, markedLookup, insertedLookup]
      · intro x hx; simp at hx
  | true =>
      have hentry : (withNew amb record true n s).tailRecords[n]?
          = some (newEntry amb record true) := by simp
      simp only [walkStart, hn.getRecordName, if_true] at hrun
      obtain ⟨_, marked, h⟩ := weightWalk_walked (hn.getProducerPrefix (hname rfl)) hentry hrun
      refine ⟨marked, ?_, h.updated, ?_, ?_, ?_⟩
      · intro x
        rw [h.mem_marked x, hlookup]
        simp
      · funext x
        rw [walked, ← show _ = insertedLookup s.tailRecords.lookup n _ from hlookup]
        exact h.tail x
      · have hrest := h.rest
        have hw' : w.ledger = (({ w.ledger with tailRecords :=
          (withNew amb record true n s).tailRecords } : LedgerImpl σ)).withTail
            w.ledger.tailRecords := rfl
        rw [hrest] at hw'
        exact hw'
      · intro x hx
        have hpassed := h.passed x (Or.inr hx)
        rw [hlookup] at hpassed
        exact hpassed

/-- The entries after the walk are named as those before it and the new one. -/
theorem named_walked (hn : Record.Named P.ndn n record)
    (hnamed : ∀ (m : Name) (t : TailingRecordState), s.tailRecords[m]? = some t →
      Record.Named P.ndn m t.record) (marked : Finset Name) {x : Name} {t : TailingRecordState}
    (ht : walked amb record endorseVerified n s.tailRecords.lookup marked x = some t) :
    Record.Named P.ndn x t.record := by
  rw [walked, markedLookup, Option.map_eq_some_iff] at ht
  obtain ⟨u, hu, rfl⟩ := ht
  have hu' : Record.Named P.ndn x u.record := by
    unfold insertedLookup at hu
    split_ifs at hu with hx
    · cases hu
      exact hx ▸ hn
    · exact hnamed x u hu
  split_ifs <;> exact hu'

theorem NewWalk.mem_toList {w : WalkState σ} {marked : Finset Name}
    (hwalk : NewWalk P amb record endorseVerified n s w marked) (x : Name) :
    x ∈ w.updatedRecords.toList ↔ x ∈ marked := by
  rw [Std.TreeSet.mem_toList, hwalk.updated]

theorem toList_nodup (names : Std.TreeSet Name) : names.toList.Nodup := by
  refine (Std.TreeSet.distinct_toList (t := names)).imp fun {x y} hne heq => ?_
  subst heq
  exact hne Std.ReflCmp.compare_self

/-- The marks are verified records, as they were before the walk. -/
def MarksVerified (amb : Ambient) (record : Record) (endorseVerified : Bool) (n : Name)
    (s : LedgerImpl σ) (marked : Finset Name) : Prop :=
  ∀ x ∈ marked, ∃ t, insertedLookup s.tailRecords.lookup n
    (newEntry amb record endorseVerified) x = some t ∧ t.parentEndorseVerified = true

/-- **After a walk that has marked verified records only, the loop over the updated records**
confirms those that cross `confirmWeight` and removes the deep ones. -/
theorem NewWalk.processAll {w : WalkState σ} {marked : Finset Name}
    (hwalk : NewWalk P amb record endorseVerified n s w marked)
    (hn : Record.Named P.ndn n record)
    (hnamed : ∀ (m : Name) (t : TailingRecordState), s.tailRecords[m]? = some t →
      Record.Named P.ndn m t.record)
    (hverified : MarksVerified amb record endorseVerified n s marked) :
    ∃ mid : TailMap,
      Outcome.forEach (processUpdated P amb) w.updatedRecords.toList (w.ledger, false)
        = (((confirmAll P amb (confirmedRecords P amb record endorseVerified n s marked
            w.updatedRecords.toList) w.ledger).withTail mid, false), .ok ()) ∧
      ∀ (x : Name) (t : TailingRecordState), mid[x]? = some t ↔
        walked amb record endorseVerified n s.tailRecords.lookup marked x = some t ∧
          ¬ (x ∈ marked ∧ IsDeep P t) := by
  -- what is marked is verified and has its packet
  have hready : ∀ x ∈ w.updatedRecords.toList, ∃ t, w.ledger.tailRecords[x]? = some t ∧
      t.parentEndorseVerified = true ∧ ∃ d, t.record.data = some d := by
    intro x hx
    obtain ⟨u, hu, huv⟩ := hverified x ((hwalk.mem_toList x).1 hx)
    have hlook : w.ledger.tailRecords[x]? = some (if x ∈ marked then
        u.mark (RecordName.getProducerPrefix n) else u) := by
      rw [show w.ledger.tailRecords[x]? = _ from congrFun hwalk.tail x, walked, markedLookup, hu]
      rfl
    obtain ⟨d, hd, _⟩ := (named_walked hn hnamed marked
      ((congrFun hwalk.tail x).symm.trans hlook)).exists_data
    refine ⟨_, hlook, ?_, d, hd⟩
    split_ifs <;> exact huv
  obtain ⟨mid, hloop, hmid⟩ := processAll_spec P amb (toList_nodup w.updatedRecords) hready
  refine ⟨mid, ?_, ?_⟩
  · rw [hloop, confirmedRecords, ← hwalk.tail]
  · intro x t
    rw [hmid, hwalk.mem_toList, ← hwalk.tail]

/-- **After such a walk the call returns**, and the tail after the loop is the one that the
eviction starts from. -/
theorem added_of_newWalk (hn : Record.Named P.ndn n record) (hfresh : s.tailRecords[n]? = none)
    (hinsert : insertRecord P amb record endorseVerified s
      = withNew amb record endorseVerified n s)
    (hnamed : ∀ (m : Name) (t : TailingRecordState), s.tailRecords[m]? = some t →
      Record.Named P.ndn m t.record) {w : WalkState σ} {marked : Finset Name}
    (hrun : weightWalk P record ((withNew amb record endorseVerified n s).tailRecords.size + 1)
      (walkStart P record endorseVerified (withNew amb record endorseVerified n s)) = (w, .ok ()))
    (hwalk : NewWalk P amb record endorseVerified n s w marked)
    (hverified : MarksVerified amb record endorseVerified n s marked) :
    ∃ s' mid, Outcome.forEach (processUpdated P amb) w.updatedRecords.toList (w.ledger, false)
        = (((confirmAll P amb (confirmedRecords P amb record endorseVerified n s marked
            w.updatedRecords.toList) w.ledger).withTail mid, false), .ok ()) ∧
      addToTailingRecord P amb record endorseVerified s = (s', .ok ()) ∧
      Added P amb record endorseVerified n s s' marked w.updatedRecords.toList mid := by
  obtain ⟨mid, hloop, hmid⟩ := hwalk.processAll hn hnamed hverified
  set done := (confirmAll P amb (confirmedRecords P amb record endorseVerified n s marked
    w.updatedRecords.toList) w.ledger).withTail mid with hdone
  -- the flag stays unset through the loop, so `updateReferences` is skipped
  refine ⟨removeTimeoutRecords P amb done, mid, hloop, ?_, ⟨hwalk.mem_marked, hwalk.mem_toList,
    Std.TreeSet.ordered_toList, fun x t ht => named_walked hn hnamed marked ht, hmid, ?_, ?_⟩⟩
  · have hcontains : s.tailRecords.contains (record.getRecordName P.ndn) = false := by
      rw [hn.getRecordName, Std.TreeMap.contains_eq_isSome_getElem?, hfresh]
      rfl
    unfold addToTailingRecord
    simp only [hcontains, Bool.false_eq_true, if_false, hinsert, hrun, hloop]
    simp only [updateReferences, Bool.false_eq_true, if_false]
  · intro x t
    exact removeTimeoutRecords_getElem? P amb done x t
  · have hrest : removeTimeoutRecords P amb done
        = done.withTail (removeTimeoutRecords P amb done).tailRecords := rfl
    rw [hrest, hdone, withTail_withTail, hwalk.rest, confirmAll_withTail, withTail_withTail]
    rfl

variable (amb) in
/-- The walk of a record that is ready returns. -/
theorem AddReady.walk_returns (h : AddReady P s record endorseVerified n)
    (hw : Walkable s.tailRecords.lookup) :
    ∃ w, weightWalk P record ((withNew amb record endorseVerified n s).tailRecords.size + 1)
      (walkStart P record endorseVerified (withNew amb record endorseVerified n s))
        = (w, .ok ()) := by
  cases endorseVerified with
  | false => exact ⟨walkStart P record false (withNew amb record false n s), rfl⟩
  | true =>
      have hentry : (withNew amb record true n s).tailRecords[n]?
          = some (newEntry amb record true) := by simp
      have hwalk : Walkable (withNew amb record true n s).tailRecords.lookup := by
        rw [insertedLookup_setTail]
        exact h.walkable hw
      simp only [walkStart, h.named.getRecordName, if_true]
      refine weightWalk_returns hwalk (h.named.getProducerPrefix (h.name rfl)) _
        (follows_start _ hentry) fun x hx t ht => ?_
      rw [List.mem_singleton.1 hx, hentry] at ht
      cases ht
      rfl

variable (amb) in
/-- **A record that is ready is added.** -/
theorem addToTailingRecord_spec (hw : Walkable s.tailRecords.lookup)
    (hnamed : ∀ (m : Name) (t : TailingRecordState), s.tailRecords[m]? = some t →
      Record.Named P.ndn m t.record)
    (h : AddReady P s record endorseVerified n) :
    ∃ s' marked names mid, addToTailingRecord P amb record endorseVerified s = (s', .ok ()) ∧
      Added P amb record endorseVerified n s s' marked names mid := by
  obtain ⟨w, hrun⟩ := h.walk_returns amb hw
  obtain ⟨marked, hwalk⟩ := newWalk_of_returns h.named h.name hrun
  obtain ⟨s', mid, _, hadd, hadded⟩ :=
    added_of_newWalk h.named h.fresh h.insertRecord_eq hnamed hrun hwalk fun x hx => by
      obtain ⟨he, hm⟩ := (hwalk.mem_marked x).1 hx
      exact hm.verified (h.walkable hw) (if_pos rfl) he
  exact ⟨s', marked, _, mid, hadd, hadded⟩

/-- A record that is a tailing record already is not added again. -/
theorem addToTailingRecord_of_tail {d : Data} (hd : record.data = some d)
    {t : TailingRecordState} (ht : s.tailRecords[P.ndn.fullName d]? = some t) :
    addToTailingRecord P amb record endorseVerified s = (s, .ok ()) := by
  have hcontains : s.tailRecords.contains (record.getRecordName P.ndn) = true := by
    rw [Record.getRecordName, hd, Std.TreeMap.contains_eq_isSome_getElem?, ht]
    rfl
  rw [addToTailingRecord, if_pos hcontains]

/-- Where the name of an endorsed record is not a record name, its walk throws. -/
theorem addToTailingRecord_throws {d : Data} (hd : record.data = some d)
    (hfresh : s.tailRecords[P.ndn.fullName d]? = none) {e : Exn}
    (he : RecordName.check (P.ndn.fullName d) = .error e) :
    addToTailingRecord P amb record true s
      = (insertRecord P amb record true s, .error (.thrown e)) := by
  have hname : record.getRecordName P.ndn = P.ndn.fullName d := by
    rw [Record.getRecordName, hd]
  have hcontains : s.tailRecords.contains (P.ndn.fullName d) = false := by
    rw [Std.TreeMap.contains_eq_isSome_getElem?, hfresh]
    rfl
  unfold addToTailingRecord
  simp only [hname, hcontains, Bool.false_eq_true, if_false, walkStart, if_true, weightWalk,
    RecordName.ofName_of_check_error he]

/-! ## Consequences -/

namespace Added

variable {s' : LedgerImpl σ} {marked : Finset Name} {names : List Name} {mid : TailMap}

/-- What is marked was a tailing record that did not count the producer. -/
theorem exists_of_mem (h : Added P amb record endorseVerified n s s' marked names mid)
    {x : Name} (hx : x ∈ marked) : endorseVerified = true ∧ n ≠ x ∧
      RecordName.getProducerPrefix x ≠ RecordName.getProducerPrefix n ∧
      ∃ t, s.tailRecords[x]? = some t ∧ RecordName.getProducerPrefix n ∉ t.refSet := by
  obtain ⟨he, hm⟩ := (h.mem_marked x).1 hx
  obtain ⟨hprod, t, ht, ha⟩ := hm.isOpen
  have hne : n ≠ x := fun heq => hprod (heq ▸ rfl)
  rw [insertedLookup, if_neg hne] at ht
  exact ⟨he, hne, hprod, t, ht, ha⟩

/-- A record without pointers marks nothing. -/
theorem marked_eq_empty (h : Added P amb record endorseVerified n s s' marked names mid)
    (hpointers : record.recordPointers = []) : marked = ∅ := by
  rw [Finset.eq_empty_iff_forall_notMem]
  intro x hx
  obtain ⟨_, hm⟩ := (h.mem_marked x).1 hx
  have hnil : ∀ p, p ∉ header (insertedLookup s.tailRecords.lookup n
      (newEntry amb record endorseVerified)) n := by
    intro p hp
    obtain ⟨_, t, ht, hp⟩ := mem_header.1 hp
    rw [insertedLookup, if_pos rfl] at ht
    cases ht
    rw [show (newEntry amb record endorseVerified).record.recordPointers = [] from hpointers] at hp
    exact List.not_mem_nil hp
  obtain ⟨y, hy, _⟩ := Relation.TransGen.head'_iff.1 hm
  exact hnil y hy.1

theorem notMem_self (h : Added P amb record endorseVerified n s s' marked names mid) :
    n ∉ marked :=
  fun hn => (h.exists_of_mem hn).2.1 rfl

theorem walked_self (h : Added P amb record endorseVerified n s s' marked names mid) :
    walked amb record endorseVerified n s.tailRecords.lookup marked n
      = some (newEntry amb record endorseVerified) := by
  simp [walked, markedLookup, insertedLookup, h.notMem_self]

theorem walked_of_ne {x : Name} (hx : n ≠ x) :
    walked amb record endorseVerified n s.tailRecords.lookup marked x
      = (s.tailRecords[x]?).map fun t =>
        if x ∈ marked then t.mark (RecordName.getProducerPrefix n) else t := by
  simp [walked, markedLookup, insertedLookup, hx]

/-- A marked record counts the producer after the walk. -/
theorem walked_of_mem (h : Added P amb record endorseVerified n s s' marked names mid)
    {x : Name} (hx : x ∈ marked) {t : TailingRecordState} (ht : s.tailRecords[x]? = some t) :
    walked amb record endorseVerified n s.tailRecords.lookup marked x
      = some (t.mark (RecordName.getProducerPrefix n)) := by
  rw [walked_of_ne (h.exists_of_mem hx).2.1, ht, Option.map_some, if_pos hx]

/-- The entries after the walk: the new one, and the old ones with the marks. -/
theorem walked_cases (h : Added P amb record endorseVerified n s s' marked names mid)
    {x : Name} {t' : TailingRecordState}
    (ht : walked amb record endorseVerified n s.tailRecords.lookup marked x = some t') :
    (n = x ∧ t' = newEntry amb record endorseVerified) ∨
      n ≠ x ∧ ∃ t, s.tailRecords[x]? = some t ∧
        t' = if x ∈ marked then t.mark (RecordName.getProducerPrefix n) else t := by
  by_cases hx : n = x
  · subst hx
    rw [h.walked_self] at ht
    exact Or.inl ⟨rfl, (Option.some.inj ht).symm⟩
  · rw [walked_of_ne hx, Option.map_eq_some_iff] at ht
    obtain ⟨t, ht, rfl⟩ := ht
    exact Or.inr ⟨hx, t, ht, rfl⟩

theorem walked_of_tail (h : Added P amb record endorseVerified n s s' marked names mid)
    {x : Name} {t : TailingRecordState} (ht : s'.tailRecords[x]? = some t) :
    walked amb record endorseVerified n s.tailRecords.lookup marked x = some t :=
  ((h.mid_iff x t).1 ((h.tail_iff x t).1 ht).1).1

/-- An entry after the walk stays, or it is deep, or it is evicted. -/
theorem tail_or (h : Added P amb record endorseVerified n s s' marked names mid)
    {x : Name} {t : TailingRecordState}
    (ht : walked amb record endorseVerified n s.tailRecords.lookup marked x = some t) :
    s'.tailRecords[x]? = some t ∨ (x ∈ marked ∧ IsDeep P t) ∨
      (mid[x]? = some t ∧ Evicted mid.lookup P.config amb x) := by
  by_cases hdeep : x ∈ marked ∧ IsDeep P t
  · exact Or.inr (Or.inl hdeep)
  · have hmid := (h.mid_iff x t).2 ⟨ht, hdeep⟩
    by_cases he : Evicted mid.lookup P.config amb x
    · exact Or.inr (Or.inr ⟨hmid, he⟩)
    · exact Or.inl ((h.tail_iff x t).2 ⟨hmid, he⟩)

theorem syncStack (h : Added P amb record endorseVerified n s s' marked names mid) :
    s'.syncStack = s.syncStack := by
  rw [h.rest]
  simp

theorem mem_confirmedRecords (h : Added P amb record endorseVerified n s s' marked names mid)
    {r : Record} : r ∈ confirmedRecords P amb record endorseVerified n s marked names ↔
      ∃ x ∈ marked, ∃ t,
        walked amb record endorseVerified n s.tailRecords.lookup marked x = some t ∧
        t.refSet.card = P.config.confirmWeight ∧ t.record = r := by
  simp only [confirmedRecords, crossing, List.mem_filterMap, Option.bind_eq_some_iff, h.mem_names,
    Option.ite_none_right_eq_some, Option.some.injEq]

theorem confirmedRecords_data (h : Added P amb record endorseVerified n s s' marked names mid) :
    ∀ r ∈ confirmedRecords P amb record endorseVerified n s marked names, ∃ d, r.data = some d := by
  intro r hr
  obtain ⟨x, _, t, ht, _, rfl⟩ := h.mem_confirmedRecords.1 hr
  obtain ⟨d, hd, _⟩ := (h.named x t ht).exists_data
  exact ⟨d, hd⟩

theorem insertions_eq (h : Added P amb record endorseVerified n s s' marked names mid) :
    s'.insertions = (record, endorseVerified) :: s.insertions := by
  rw [h.rest]
  simp [Event.insertion?]

theorem confirmations_eq (h : Added P amb record endorseVerified n s s' marked names mid) :
    s'.confirmations
      = (confirmedRecords P amb record endorseVerified n s marked names).reverse
        ++ s.confirmations := by
  rw [h.rest, withTail_confirmations, confirmAll_confirmations P amb h.confirmedRecords_data]
  simp [Event.confirmation?]

theorem calls_eq (h : Added P amb record endorseVerified n s s' marked names mid) :
    s'.calls = confirmedRecords P amb record endorseVerified n s marked names :: s.calls := by
  have hstart : (s.emit (.inserted record endorseVerified)).calls = [] :: s.calls := rfl
  rw [h.rest, withTail_calls, confirmAll_calls P amb h.confirmedRecords_data hstart]
  rfl

/-- Whether writes succeed or not, what is stored was stored before or is marked. -/
theorem getRecord_cases (h : Added P amb record endorseVerified n s s' marked names mid)
    {x : Name} {d : Data} (hx : s'.backend.getRecord P.ndn x = some d) :
    s.backend.getRecord P.ndn x = some d ∨ x ∈ marked := by
  rw [h.rest, withTail_backend] at hx
  rcases confirmAll_getRecord_cases P amb hx with hs | ⟨r, hr, hd, rfl⟩
  · exact Or.inl hs
  · obtain ⟨y, hy, t, ht, _, rfl⟩ := h.mem_confirmedRecords.1 hr
    have hyd := (h.named y t ht).ofData_eq hd
    exact Or.inr (hyd.2 ▸ hy)

/-- What is stored was stored before, or it crosses `confirmWeight` and its write succeeds. -/
theorem stored_iff (h : Added P amb record endorseVerified n s s' marked names mid) {x : Name} :
    (∃ d, s'.backend.getRecord P.ndn x = some d) ↔
      (∃ d, s.backend.getRecord P.ndn x = some d) ∨ amb.putOk x = true ∧ x ∈ marked ∧
        ∃ t, walked amb record endorseVerified n s.tailRecords.lookup marked x = some t ∧
          t.refSet.card = P.config.confirmWeight := by
  have hcrossing : (∃ r ∈ confirmedRecords P amb record endorseVerified n s marked names,
      ∃ d, r.data = some d ∧ P.ndn.fullName d = x) ↔ x ∈ marked ∧
        ∃ t, walked amb record endorseVerified n s.tailRecords.lookup marked x = some t ∧
          t.refSet.card = P.config.confirmWeight := by
    constructor
    · rintro ⟨r, hr, d, hd, hx⟩
      obtain ⟨y, hy, t, ht, hc, rfl⟩ := h.mem_confirmedRecords.1 hr
      have hyx : y = x := ((h.named y t ht).ofData_eq hd).2.symm.trans hx
      subst hyx
      exact ⟨hy, t, ht, hc⟩
    · rintro ⟨hx, t, ht, hc⟩
      obtain ⟨d, hd, hname⟩ := (h.named x t ht).exists_data
      exact ⟨t.record, h.mem_confirmedRecords.2 ⟨x, hx, t, ht, hc, rfl⟩, d, hd, hname⟩
  rw [h.rest, withTail_backend, confirmAll_stored_iff, hcrossing]
  rfl

/-- What is stored stays stored. -/
theorem backend_mono (h : Added P amb record endorseVerified n s s' marked names mid)
    {x : Name} {d : Data} (hx : s.backend.getRecord P.ndn x = some d) :
    ∃ d', s'.backend.getRecord P.ndn x = some d' :=
  h.stored_iff.2 (Or.inl ⟨d, hx⟩)

/-- A record that crosses `confirmWeight` is stored. -/
theorem backend_of_crossing (h : Added P amb record endorseVerified n s s' marked names mid)
    (hput : ∀ m, amb.putOk m = true) {x : Name} {t : TailingRecordState} (hx : x ∈ marked)
    (ht : walked amb record endorseVerified n s.tailRecords.lookup marked x = some t)
    (hc : t.refSet.card = P.config.confirmWeight) :
    s'.backend.getRecord P.ndn x = t.record.data := by
  have hmem : t.record ∈ confirmedRecords P amb record endorseVerified n s marked names :=
    h.mem_confirmedRecords.2 ⟨x, hx, t, ht, hc, rfl⟩
  rw [h.rest, withTail_backend, confirmAll_getRecord P amb h.confirmedRecords_data hput]
  cases hfind : (confirmedRecords P amb record endorseVerified n s marked names).reverse.find?
      fun r => r.getRecordName P.ndn == x with
  | none =>
      have := List.find?_eq_none.1 hfind t.record (List.mem_reverse.2 hmem)
      simp [(h.named x t ht).getRecordName] at this
  | some r =>
      obtain ⟨y, _, u, hu, _, rfl⟩ :=
        h.mem_confirmedRecords.1 (List.mem_reverse.1 (List.mem_of_find?_eq_some hfind))
      have hyx : y = x := by
        have := List.find?_some hfind
        rwa [(h.named y u hu).getRecordName, beq_iff_eq] at this
      subst hyx
      rw [ht] at hu
      cases hu
      obtain ⟨d, hd, _⟩ := (h.named y t ht).exists_data
      simp [hd]

/-- Nothing else changes in the database. -/
theorem backend_of_not_crossing
    (h : Added P amb record endorseVerified n s s' marked names mid)
    (hput : ∀ m, amb.putOk m = true) {x : Name}
    (hx : ∀ t, x ∈ marked →
      walked amb record endorseVerified n s.tailRecords.lookup marked x = some t →
      t.refSet.card ≠ P.config.confirmWeight) :
    s'.backend.getRecord P.ndn x = s.backend.getRecord P.ndn x := by
  rw [h.rest, withTail_backend, confirmAll_getRecord P amb h.confirmedRecords_data hput]
  have hnone : (confirmedRecords P amb record endorseVerified n s marked names).reverse.find?
      (fun r => r.getRecordName P.ndn == x) = none := by
    rw [List.find?_eq_none]
    intro r hr hname
    obtain ⟨y, hy, t, ht, hc, rfl⟩ := h.mem_confirmedRecords.1 (List.mem_reverse.1 hr)
    rw [(h.named y t ht).getRecordName, beq_iff_eq] at hname
    subst hname
    exact hx t hy ht hc
  rw [hnone]
  rfl

end Added

end LedgerImpl

end DLedger
