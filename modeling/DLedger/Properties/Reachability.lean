import DLedger.Ledger.Add
import DLedger.Ledger.Sample

set_option autoImplicit false

/-! # The weight walk computes reachability

On any tail whose records can all be read, also where pointers form cycles, the walk of a new
endorsed record ends, and it counts the producer at exactly the records that a chain of pointers
reaches from the new record. `Marks` is such a chain.
-/

namespace DLedger

open Tlv (Bytes Block)

namespace LedgerImpl

variable {σ : Type}

/-- A tail in which `getRecord` returns every record and all keys and pointers are record names.
Nothing else is asked of it. -/
structure ReadableTail (P : Peer σ) (s : LedgerImpl σ) : Prop where
  getRecord : ∀ (n : Name) (t : TailingRecordState), s.tailRecords[n]? = some t →
    ∃ r, s.getRecord P n = .ok (some r)
  name : ∀ (n : Name) (t : TailingRecordState), s.tailRecords[n]? = some t →
    RecordName.check n = .ok ()
  pointerName : ∀ (n : Name) (t : TailingRecordState), s.tailRecords[n]? = some t →
    ∀ p ∈ t.record.recordPointers, RecordName.check p = .ok ()

/-- What the walk of a producer leaves when it starts at a record of `s`: an empty stack, the
records that are reached, and the ledger as it was but for the producer in their reference
sets. -/
structure CountsReached (s : LedgerImpl σ) (producer start : Name) (w : WalkState σ) : Prop where
  stack : w.stack = []
  updatedRecords : ∀ x, x ∈ w.updatedRecords ↔ Marks s.tailRecords.lookup producer start x
  reached : ∀ (x : Name) (t : TailingRecordState), s.tailRecords[x]? = some t →
    Marks s.tailRecords.lookup producer start x → producer ∉ t.refSet ∧
      w.ledger.tailRecords[x]? = some { t with refSet := insert producer t.refSet }
  unreached : ∀ x, ¬ Marks s.tailRecords.lookup producer start x →
    w.ledger.tailRecords[x]? = s.tailRecords[x]?
  rest : { w.ledger with tailRecords := s.tailRecords } = s

variable {P : Peer σ} {s : LedgerImpl σ} {record : Record} {producer start : Name}

namespace ReadableTail

/-- What `getRecord` returns from the tail is verified. -/
theorem verified (h : ReadableTail P s) {n : Name} {t : TailingRecordState}
    (ht : s.tailRecords[n]? = some t) : t.parentEndorseVerified = true := by
  obtain ⟨r, hr⟩ := h.getRecord n t ht
  by_contra hv
  simp [LedgerImpl.getRecord, ht, hv] at hr

theorem walkable (h : ReadableTail P s) : Walkable s.tailRecords.lookup where
  name n t ht _ := h.name n t ht
  pointerName n t ht _ := h.pointerName n t ht
  pointer _ _ _ _ _ _ _ hu := h.verified hu

theorem pointersVerified (h : ReadableTail P s) (record : Record) :
    LedgerImpl.pointersVerified record s = true := by
  rw [LedgerImpl.pointersVerified, List.all_eq_true]
  intro p _
  cases hp : s.tailRecords[p]? with
  | none => rfl
  | some t => exact h.verified hp

/-- The entries of the tail with a new endorsed record. -/
theorem insertRecord_cases (h : ReadableTail P s) {amb : Ambient} {n : Name}
    {t : TailingRecordState}
    (ht : (LedgerImpl.insertRecord P amb record true s).tailRecords[n]? = some t) :
    (n = record.getRecordName P.ndn ∧ t = newEntry amb record true) ∨
      s.tailRecords[n]? = some t := by
  rw [insertRecord_eq rfl (h.pointersVerified record), setTail_getElem?] at ht
  by_cases hn : record.getRecordName P.ndn = n
  · rw [if_pos hn, Option.some.injEq] at ht
    exact Or.inl ⟨hn.symm, ht.symm⟩
  · rw [if_neg hn] at ht
    exact Or.inr ht

/-- The tail stays readable with an endorsed record of a good name and good pointers. -/
theorem insertRecord (h : ReadableTail P s) (amb : Ambient)
    (hname : RecordName.check (record.getRecordName P.ndn) = .ok ())
    (hpointers : ∀ p ∈ record.recordPointers, RecordName.check p = .ok ()) :
    ReadableTail P (LedgerImpl.insertRecord P amb record true s) := by
  refine ⟨?_, ?_, ?_⟩
  · intro n t ht
    have hv : t.parentEndorseVerified = true := by
      rcases h.insertRecord_cases ht with ⟨_, rfl⟩ | hold
      · rfl
      · exact h.verified hold
    exact ⟨t.record, by simp only [LedgerImpl.getRecord, ht, hv, if_true]⟩
  · intro n t ht
    rcases h.insertRecord_cases ht with ⟨rfl, _⟩ | hold
    · exact hname
    · exact h.name n t hold
  · intro n t ht
    rcases h.insertRecord_cases ht with ⟨_, rfl⟩ | hold
    · exact hpointers
    · exact h.pointerName n t hold

/-- The walk from a record of a readable tail returns with every fuel above the size of the tail,
and always the same. -/
theorem weightWalk (h : ReadableTail P s) (hprod : record.getProducerPrefix = .ok producer)
    {t : TailingRecordState} (ht : s.tailRecords[start]? = some t) :
    ∃ w, CountsReached s producer start w ∧ ∀ fuel, s.tailRecords.size < fuel →
      LedgerImpl.weightWalk P record fuel ⟨s, [start], ∅⟩ = (w, .ok ()) := by
  obtain ⟨w, hrun⟩ := weightWalk_returns h.walkable hprod (s.tailRecords.size + 1)
    (follows_start producer ht) (fun x _ u hu => h.verified hu)
  obtain ⟨hstack, marked, hwalk⟩ := weightWalk_walked hprod ht hrun
  refine ⟨w, ⟨hstack, ?_, ?_, ?_, hwalk.rest⟩, ?_⟩
  · intro x
    rw [hwalk.updated x, hwalk.mem_marked x]
  · intro x u hu hx
    obtain ⟨_, u', hu', hnew⟩ := hx.isOpen
    have hsame : u' = u := Option.some.inj (hu'.symm.trans hu)
    refine ⟨hsame ▸ hnew, ?_⟩
    rw [hwalk.tail x, hu, Option.map_some, if_pos ((hwalk.mem_marked x).2 hx)]
    rfl
  · intro x hx
    have hunmarked : x ∉ marked := fun hmem => hx ((hwalk.mem_marked x).1 hmem)
    rw [hwalk.tail x]
    cases s.tailRecords[x]? <;> simp [hunmarked]
  · intro fuel hfuel
    exact weightWalk_of_stack hrun hstack hfuel

end ReadableTail

/-- **The walk of a new endorsed record ends on every readable tail, and adds its producer to the
reference sets of exactly the records that a chain of pointers reaches.** -/
theorem weightWalk_reaches (P : Peer σ) (amb : Ambient) (s : LedgerImpl σ) (record : Record)
    (producer : Name) (hs : ReadableTail P s) (hprod : record.getProducerPrefix = .ok producer)
    (hname : RecordName.check (record.getRecordName P.ndn) = .ok ())
    (hpointers : ∀ p ∈ record.recordPointers, RecordName.check p = .ok ()) :
    ∃ w, CountsReached (insertRecord P amb record true s) producer (record.getRecordName P.ndn) w ∧
      ∀ fuel, (insertRecord P amb record true s).tailRecords.size < fuel →
        weightWalk P record fuel (walkStart P record true (insertRecord P amb record true s))
          = (w, .ok ()) := by
  have hentry : (insertRecord P amb record true s).tailRecords[record.getRecordName P.ndn]?
      = some (newEntry amb record true) := by
    rw [insertRecord_eq rfl (hs.pointersVerified record), setTail_getElem?, if_pos rfl]
  exact (hs.insertRecord amb hname hpointers).weightWalk hprod hentry

/-! ## A cycle -/

/-- Two names, and the entries of two records that point to each other. -/
def cycleName (producer : UInt8) : Name := Sample.ndn.fullName (Sample.packet producer 0 [])

def cycleEntry (pointer : Name) : TailingRecordState :=
  { parentEndorseVerified := true, record := { recordPointers := [pointer] } }

/-- A ledger with these two entries alone. -/
def cycle : LedgerImpl Unit :=
  (({ backend := Backend.empty, tailRecords := ∅, syncStack := [], lastCertRecords := [],
      certManager := (), log := [] } : LedgerImpl Unit).setTail (cycleName 97)
        (cycleEntry (cycleName 98))).setTail (cycleName 98) (cycleEntry (cycleName 97))

/-- A record of a third producer on the first one. -/
def cycleRecord : Record :=
  { data := some (Sample.packet 99 0 [cycleName 97]), recordPointers := [cycleName 97] }

def cyclePeer : Peer Unit := Sample.peer (Sample.config 1 1 1)

theorem cycle_cases {n : Name} {t : TailingRecordState} (h : cycle.tailRecords[n]? = some t) :
    (n = cycleName 98 ∧ t = cycleEntry (cycleName 97)) ∨
      (n = cycleName 97 ∧ t = cycleEntry (cycleName 98)) := by
  rw [cycle, setTail_getElem?, setTail_getElem?] at h
  by_cases h98 : cycleName 98 = n
  · rw [if_pos h98, Option.some.injEq] at h
    exact Or.inl ⟨h98.symm, h.symm⟩
  · by_cases h97 : cycleName 97 = n
    · rw [if_neg h98, if_pos h97, Option.some.injEq] at h
      exact Or.inr ⟨h97.symm, h.symm⟩
    · rw [if_neg h98, if_neg h97] at h
      simp at h

theorem cycle_readable : ReadableTail cyclePeer cycle := by
  have hname : ∀ producer, RecordName.check (cycleName producer) = .ok () := by
    intro producer
    rfl
  refine ⟨?_, ?_, ?_⟩
  · intro n t ht
    have hv : t.parentEndorseVerified = true := by
      rcases cycle_cases ht with ⟨_, rfl⟩ | ⟨_, rfl⟩ <;> rfl
    exact ⟨t.record, by simp only [getRecord, ht, hv, if_true]⟩
  · intro n t ht
    rcases cycle_cases ht with ⟨rfl, _⟩ | ⟨rfl, _⟩
    · exact hname 98
    · exact hname 97
  · intro n t ht p hp
    rcases cycle_cases ht with ⟨_, rfl⟩ | ⟨_, rfl⟩
    · rw [List.mem_singleton.1 hp]
      exact hname 97
    · rw [List.mem_singleton.1 hp]
      exact hname 98

/-- The ledger with the new record. -/
def cycleInserted : LedgerImpl Unit :=
  insertRecord cyclePeer Sample.ambient cycleRecord true cycle

theorem cycleInserted_lookup (n : Name) : cycleInserted.tailRecords[n]?
    = if cycleRecord.getRecordName Sample.ndn = n then
        some (newEntry Sample.ambient cycleRecord true)
      else cycle.tailRecords[n]? := by
  rw [cycleInserted, insertRecord_eq rfl (cycle_readable.pointersVerified cycleRecord),
    setTail_getElem?]
  rfl

/-- From the new record a chain of two pointers leads to the second record. -/
theorem cycle_marks : Marks cycleInserted.tailRecords.lookup [.generic [99]]
    (cycleRecord.getRecordName Sample.ndn) (cycleName 98) := by
  have h99 : cycleInserted.tailRecords[cycleRecord.getRecordName Sample.ndn]?
      = some (newEntry Sample.ambient cycleRecord true) := by
    rw [cycleInserted_lookup, if_pos rfl]
  have h97 : cycleInserted.tailRecords[cycleName 97]? = some (cycleEntry (cycleName 98)) := by
    rw [cycleInserted_lookup, if_neg (by decide +kernel), cycle, setTail_getElem?,
      if_neg (by decide +kernel), setTail_getElem?, if_pos rfl]
  have h98 : cycleInserted.tailRecords[cycleName 98]? = some (cycleEntry (cycleName 97)) := by
    rw [cycleInserted_lookup, if_neg (by decide +kernel), cycle, setTail_getElem?, if_pos rfl]
  have hfirst : Marks cycleInserted.tailRecords.lookup [.generic [99]]
      (cycleRecord.getRecordName Sample.ndn) (cycleName 97) := by
    refine Relation.TransGen.single ⟨mem_header.2 ⟨by decide +kernel, _, h99, ?_⟩,
      by decide +kernel, _, h97, ?_⟩
    · exact List.mem_singleton_self _
    · simp [cycleEntry]
  refine Relation.TransGen.tail hfirst ⟨mem_header.2 ⟨by decide +kernel, _, h97, ?_⟩,
    by decide +kernel, _, h98, ?_⟩
  · exact List.mem_singleton_self _
  · simp [cycleEntry]

theorem weightWalk_reaches_cycle :
    ∃ w, CountsReached cycleInserted [.generic [99]] (cycleRecord.getRecordName Sample.ndn) w ∧
      weightWalk cyclePeer cycleRecord (cycleInserted.tailRecords.size + 1)
        (walkStart cyclePeer cycleRecord true cycleInserted) = (w, .ok ()) ∧
      cycleName 98 ∈ w.updatedRecords := by
  have hpointers : ∀ p ∈ cycleRecord.recordPointers, RecordName.check p = .ok () := by
    intro p hp
    rw [List.mem_singleton.1 hp]
    rfl
  obtain ⟨w, hw, hfuel⟩ := weightWalk_reaches cyclePeer Sample.ambient cycle cycleRecord
    [.generic [99]] cycle_readable rfl rfl hpointers
  exact ⟨w, hw, hfuel _ (Nat.lt_succ_self _), (hw.updatedRecords _).2 cycle_marks⟩

end LedgerImpl

end DLedger
