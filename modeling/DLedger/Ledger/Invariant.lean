import DLedger.Ledger.Add

set_option autoImplicit false

/-! # The invariant of the tail

`TailSound` is about the tail alone. Its heart is `closed`: what counts for an endorsed
record, its own producer included, counts for each record it points to, unless it is the
producer of that record. So the weight of a record never exceeds that of its pointers.
`TailInv` adds how the tail and the database go together. Both hold between the calls of a
ledger, on whatever database it starts.
-/

namespace DLedger

open Tlv (Bytes Block)

/-- A producer is in the reference set of a record or is its producer. -/
def Covers (a n : Name) (t : TailingRecordState) : Prop :=
  a ∈ t.refSet ∨ a = RecordName.getProducerPrefix n

structure TailSound (ndn : Ndn) (lookup : Name → Option TailingRecordState) : Prop where
  named : ∀ n t, lookup n = some t → Record.Named ndn n t.record
  flags : ∀ n t, lookup n = some t → t.parentEndorseVerified = t.recordEndorseVerified
  name : ∀ n t, lookup n = some t → t.recordEndorseVerified = true →
    RecordName.check n = .ok ()
  pointerName : ∀ n t, lookup n = some t → t.recordEndorseVerified = true →
    ∀ p ∈ t.record.recordPointers, RecordName.check p = .ok ()
  genesis : ∀ n t, lookup n = some t → t.recordEndorseVerified = true →
    RecordName.getRecordType n = .genesisRecord → t.record.recordPointers = []
  pointer : ∀ n t, lookup n = some t → t.recordEndorseVerified = true →
    ∀ p ∈ t.record.recordPointers, ∀ u, lookup p = some u → u.recordEndorseVerified = true
  unmarked : ∀ n t, lookup n = some t → t.recordEndorseVerified = false → t.refSet = ∅
  own : ∀ n t, lookup n = some t → RecordName.getProducerPrefix n ∉ t.refSet
  closed : ∀ n t, lookup n = some t → t.recordEndorseVerified = true →
    ∀ p ∈ t.record.recordPointers, ∀ u, lookup p = some u → ∀ a, Covers a n t → Covers a p u

namespace TailSound

variable {ndn : Ndn} {lookup : Name → Option TailingRecordState}

theorem walkable (h : TailSound ndn lookup) : Walkable lookup where
  name n t ht hv := h.name n t ht (h.flags n t ht ▸ hv)
  pointerName n t ht hv := h.pointerName n t ht (h.flags n t ht ▸ hv)
  pointer n t ht hv p hp u hu := by
    rw [h.flags p u hu]
    exact h.pointer n t ht (h.flags n t ht ▸ hv) p hp u hu

/-- Removing entries keeps the tail sound. -/
theorem mono (h : TailSound ndn lookup) {lookup' : Name → Option TailingRecordState}
    (hsub : ∀ n t, lookup' n = some t → lookup n = some t) : TailSound ndn lookup' where
  named n t ht := h.named n t (hsub n t ht)
  flags n t ht := h.flags n t (hsub n t ht)
  name n t ht := h.name n t (hsub n t ht)
  pointerName n t ht := h.pointerName n t (hsub n t ht)
  genesis n t ht := h.genesis n t (hsub n t ht)
  pointer n t ht hv p hp u hu := h.pointer n t (hsub n t ht) hv p hp u (hsub p u hu)
  unmarked n t ht := h.unmarked n t (hsub n t ht)
  own n t ht := h.own n t (hsub n t ht)
  closed n t ht hv p hp u hu := h.closed n t (hsub n t ht) hv p hp u (hsub p u hu)

/-- **A record's weight is never above the weight of a record it points to.** -/
theorem card_le (h : TailSound ndn lookup) {n p : Name} {t u : TailingRecordState}
    (ht : lookup n = some t) (hp : p ∈ t.record.recordPointers) (hu : lookup p = some u) :
    t.refSet.card ≤ u.refSet.card := by
  cases hv : t.recordEndorseVerified with
  | false => rw [h.unmarked n t ht hv, Finset.card_empty]; exact Nat.zero_le _
  | true =>
      have hsub : insert (RecordName.getProducerPrefix n) t.refSet
          ⊆ insert (RecordName.getProducerPrefix p) u.refSet := by
        intro a ha
        rw [Finset.mem_insert] at ha ⊢
        exact (h.closed n t ht hv p hp u hu a ha.symm).symm
      have hcard := Finset.card_le_card hsub
      rw [Finset.card_insert_of_notMem (h.own n t ht)] at hcard
      have := Finset.card_insert_le (RecordName.getProducerPrefix p) u.refSet
      omega

end TailSound

namespace LedgerImpl

variable {σ : Type} {P : Peer σ} {amb : Ambient} {s s' : LedgerImpl σ} {record : Record}
  {endorseVerified : Bool} {n : Name} {marked : Finset Name} {names : List Name} {mid : TailMap}

/-! ## The walk keeps the tail sound -/

/-- A marked record is endorsed. -/
theorem Added.endorsed_of_mem (h : Added P amb record endorseVerified n s s' marked names mid)
    (hs : TailSound P.ndn s.tailRecords.lookup) (hr : AddReady P s record endorseVerified n)
    {x : Name} (hx : x ∈ marked) {t : TailingRecordState} (ht : s.tailRecords[x]? = some t) :
    t.recordEndorseVerified = true := by
  obtain ⟨he, hm⟩ := (h.mem_marked x).1 hx
  have hne := (h.exists_of_mem hx).2.1
  obtain ⟨u, hu, huv⟩ := hm.verified (hr.walkable hs.walkable)
    (show insertedLookup s.tailRecords.lookup n (newEntry amb record endorseVerified) n
      = some _ from if_pos rfl) he
  rw [insertedLookup, if_neg hne] at hu
  rw [show s.tailRecords[x]? = some u from hu] at ht
  cases ht
  rw [← hs.flags x t hu, huv]

/-- The walk goes on from the new record and from what it marks. -/
theorem Added.mem_marked_of_pointer
    (h : Added P amb record endorseVerified n s s' marked names mid)
    {c p : Name} (hc : endorseVerified = true ∧ n = c ∨ c ∈ marked) {t u : TailingRecordState}
    (htype : RecordName.getRecordType c ≠ .genesisRecord)
    (ht : insertedLookup s.tailRecords.lookup n (newEntry amb record endorseVerified) c = some t)
    (hp : p ∈ t.record.recordPointers)
    (hprod : RecordName.getProducerPrefix p ≠ RecordName.getProducerPrefix n)
    (hu : s.tailRecords[p]? = some u) (hopen : RecordName.getProducerPrefix n ∉ u.refSet) :
    p ∈ marked := by
  have hne : n ≠ p := fun heq => hprod (heq ▸ rfl)
  have hedge : Worklist.Edge
      (header (insertedLookup s.tailRecords.lookup n (newEntry amb record endorseVerified)))
      (IsOpen (insertedLookup s.tailRecords.lookup n (newEntry amb record endorseVerified))
        (RecordName.getProducerPrefix n)) c p := by
    refine ⟨mem_header.2 ⟨htype, t, ht, hp⟩, hprod, u, ?_, hopen⟩
    rw [insertedLookup, if_neg hne]
    exact hu
  rw [h.mem_marked]
  rcases hc with ⟨he, rfl⟩ | hc
  · exact ⟨he, Relation.TransGen.single hedge⟩
  · obtain ⟨he, hm⟩ := (h.mem_marked c).1 hc
    exact ⟨he, hm.tail hedge⟩

/-- The walk restores `closed`, for the new record and for all that it marks. -/
theorem Added.closed (h : Added P amb record endorseVerified n s s' marked names mid)
    (hs : TailSound P.ndn s.tailRecords.lookup) (hr : AddReady P s record endorseVerified n)
    (hgenesis : endorseVerified = true → RecordName.getRecordType n = .genesisRecord →
      record.recordPointers = []) {x p a : Name} {t' u' : TailingRecordState}
    (ht' : walked amb record endorseVerified n s.tailRecords.lookup marked x = some t')
    (hv : t'.recordEndorseVerified = true) (hp : p ∈ t'.record.recordPointers)
    (hu' : walked amb record endorseVerified n s.tailRecords.lookup marked p = some u')
    (ha : Covers a x t') : Covers a p u' := by
  rcases h.walked_cases hu' with ⟨rfl, rfl⟩ | ⟨hnep, u, hu, rfl⟩
  · -- only the new record can point to itself
    rcases h.walked_cases ht' with ⟨rfl, rfl⟩ | ⟨_, t, ht, rfl⟩
    · exact ha
    · rw [ite_mark_record] at hp
      exact absurd hp (hr.unpointed x t ht)
  by_cases hprod : RecordName.getProducerPrefix p = a
  · exact Or.inr hprod.symm
  left
  rw [mem_ite_mark]
  -- the producer of the new record counts where the walk goes on
  have hwalk : a = RecordName.getProducerPrefix n →
      (endorseVerified = true ∧ n = x ∨ x ∈ marked) → ∀ t,
      insertedLookup s.tailRecords.lookup n (newEntry amb record endorseVerified) x = some t →
      p ∈ t.record.recordPointers → RecordName.getRecordType x ≠ .genesisRecord →
      (p ∈ marked ∧ a = RecordName.getProducerPrefix n) ∨ a ∈ u.refSet := by
    rintro rfl hx t ht hpt htype
    by_cases hmem : RecordName.getProducerPrefix n ∈ u.refSet
    · exact Or.inr hmem
    · exact Or.inl ⟨h.mem_marked_of_pointer hx htype ht hpt hprod hu hmem, rfl⟩
  rcases h.walked_cases ht' with ⟨rfl, rfl⟩ | ⟨hnex, t, ht, rfl⟩
  · refine hwalk (ha.resolve_left (Finset.notMem_empty a)) (Or.inl ⟨hv, rfl⟩) _ (if_pos rfl) hp
      fun htype => ?_
    have hnil : (newEntry amb record endorseVerified).record.recordPointers = [] :=
      hgenesis hv htype
    rw [hnil] at hp
    exact absurd hp List.not_mem_nil
  · rw [ite_mark_record] at hp
    rw [ite_mark_recordEndorseVerified] at hv
    rw [Covers, mem_ite_mark, or_assoc] at ha
    rcases ha with ⟨hx, ha⟩ | ha
    · refine hwalk ha (Or.inr hx) t (by rw [insertedLookup, if_neg hnex]; exact ht) hp
        fun htype => ?_
      rw [hs.genesis x t ht hv htype] at hp
      exact absurd hp List.not_mem_nil
    · exact Or.inr
        ((hs.closed x t ht hv p hp u hu a ha).resolve_right fun heq => hprod heq.symm)

/-- **The tail after the walk is sound.** -/
theorem Added.sound (h : Added P amb record endorseVerified n s s' marked names mid)
    (hs : TailSound P.ndn s.tailRecords.lookup) (hr : AddReady P s record endorseVerified n)
    (hgenesis : endorseVerified = true → RecordName.getRecordType n = .genesisRecord →
      record.recordPointers = []) :
    TailSound P.ndn (walked amb record endorseVerified n s.tailRecords.lookup marked) := by
  -- each part is that of the new entry or of an old one, as a mark changes `refSet` alone
  refine ⟨h.named, ?_, ?_, ?_, ?_, ?_, ?_, ?_, fun x t' ht' hv p hp u' hu' a ha =>
    h.closed hs hr hgenesis ht' hv hp hu' ha⟩
  · intro x t' ht'
    rcases h.walked_cases ht' with ⟨rfl, rfl⟩ | ⟨_, t, ht, rfl⟩
    · rfl
    · simpa using hs.flags x t ht
  · intro x t' ht' hv
    rcases h.walked_cases ht' with ⟨rfl, rfl⟩ | ⟨_, t, ht, rfl⟩
    · exact hr.name hv
    · exact hs.name x t ht (by simpa using hv)
  · intro x t' ht' hv
    rcases h.walked_cases ht' with ⟨rfl, rfl⟩ | ⟨_, t, ht, rfl⟩
    · exact hr.pointerName hv
    · simpa using hs.pointerName x t ht (by simpa using hv)
  · intro x t' ht' hv
    rcases h.walked_cases ht' with ⟨rfl, rfl⟩ | ⟨_, t, ht, rfl⟩
    · exact hgenesis hv
    · simpa using hs.genesis x t ht (by simpa using hv)
  · intro x t' ht' hv p hp u' hu'
    rcases h.walked_cases ht' with ⟨rfl, rfl⟩ | ⟨_, t, ht, rfl⟩
    · rcases h.walked_cases hu' with ⟨_, rfl⟩ | ⟨_, u, hu, rfl⟩
      · exact hv
      · rw [ite_mark_recordEndorseVerified, ← hs.flags p u hu]
        exact hr.verified p hp u hu
    · rw [ite_mark_record] at hp
      rcases h.walked_cases hu' with ⟨rfl, _⟩ | ⟨_, u, hu, rfl⟩
      · exact absurd hp (hr.unpointed x t ht)
      · rw [ite_mark_recordEndorseVerified] at hv ⊢
        exact hs.pointer x t ht hv p hp u hu
  · intro x t' ht' hv
    rcases h.walked_cases ht' with ⟨rfl, rfl⟩ | ⟨_, t, ht, rfl⟩
    · rfl
    · rw [ite_mark_recordEndorseVerified] at hv
      have hx : x ∉ marked := fun hx => by
        rw [h.endorsed_of_mem hs hr hx ht] at hv
        cases hv
      rw [if_neg hx]
      exact hs.unmarked x t ht hv
  · intro x t' ht'
    rcases h.walked_cases ht' with ⟨rfl, rfl⟩ | ⟨_, t, ht, rfl⟩
    · exact Finset.notMem_empty _
    · rw [mem_ite_mark, not_or]
      exact ⟨fun hx => (h.exists_of_mem hx.1).2.2.1 hx.2, hs.own x t ht⟩

/-! ## The tail and the database -/

/-- The tail is sound, and the pointers of a tailing record are in the tail or in the database. -/
structure TailHeld (P : Peer σ) (s : LedgerImpl σ) : Prop where
  sound : TailSound P.ndn s.tailRecords.lookup
  held : ∀ (n : Name) (t : TailingRecordState), s.tailRecords[n]? = some t →
    ∀ p ∈ t.record.recordPointers,
      (∃ u, s.tailRecords[p]? = some u) ∨ ∃ d, s.backend.getRecord P.ndn p = some d

theorem TailHeld.congr (h : TailHeld P s) (ht : s'.tailRecords = s.tailRecords)
    (hb : s'.backend = s.backend) : TailHeld P s' := by
  refine ⟨?_, ?_⟩
  · rw [ht]; exact h.sound
  · rw [ht, hb]; exact h.held

/-- The deep records that a call removes are stored by its end. -/
def StoresDeep (P : Peer σ) (amb : Ambient) (record : Record) (endorseVerified : Bool) (n : Name)
    (s s' : LedgerImpl σ) (marked : Finset Name) : Prop :=
  ∀ x ∈ marked, ∀ t,
    walked amb record endorseVerified n s.tailRecords.lookup marked x = some t → IsDeep P t →
    ∃ d, s'.backend.getRecord P.ndn x = some d

/-- **A call that removes stored records only** keeps the pointers of the tail in the tail or in
the database. -/
theorem TailHeld.added (hs : TailHeld P s) (hr : AddReady P s record endorseVerified n)
    (hgenesis : endorseVerified = true → RecordName.getRecordType n = .genesisRecord →
      record.recordPointers = [])
    (hheld : ∀ p ∈ record.recordPointers,
      (∃ u, s.tailRecords[p]? = some u) ∨ ∃ d, s.backend.getRecord P.ndn p = some d)
    (h : Added P amb record endorseVerified n s s' marked names mid)
    (hdeep : StoresDeep P amb record endorseVerified n s s' marked) : TailHeld P s' where
  sound := (h.sound hs.sound hr hgenesis).mono fun x t ht => h.walked_of_tail ht
  held x t' ht' p hp := by
    have hw := h.walked_of_tail ht'
    have hold : (∃ u, s.tailRecords[p]? = some u) ∨ ∃ d, s.backend.getRecord P.ndn p = some d := by
      rcases h.walked_cases hw with ⟨rfl, rfl⟩ | ⟨_, t, ht, rfl⟩
      · exact hheld p hp
      · rw [ite_mark_record] at hp
        exact hs.held x t ht p hp
    rcases hold with ⟨u, hu⟩ | ⟨d, hd⟩
    · -- a pointer that leaves the tail is stored, or it would take the record with it
      obtain ⟨u', hu'⟩ : ∃ u',
          walked amb record endorseVerified n s.tailRecords.lookup marked p = some u' := by
        by_cases hnp : n = p
        · subst hnp; exact ⟨_, h.walked_self⟩
        · exact ⟨_, by rw [Added.walked_of_ne hnp, hu]; rfl⟩
      rcases h.tail_or hu' with hu' | ⟨hx, hu''⟩ | ⟨hmid, he⟩
      · exact Or.inl ⟨u', hu'⟩
      · exact Or.inr (hdeep p hx u' hu' hu'')
      · obtain ⟨hx, hxe⟩ := (h.tail_iff x t').1 ht'
        exact absurd (he.of_pointer hx hmid hp) hxe
    · exact Or.inr (h.backend_mono hd)

/-- The tail is sound, the pointers of a tailing record are in the tail or in the database,
a record of weight `confirmWeight` or more is in the database, and no deep record is left. -/
structure TailInv (P : Peer σ) (s : LedgerImpl σ) : Prop where
  sound : TailSound P.ndn s.tailRecords.lookup
  held : ∀ (n : Name) (t : TailingRecordState), s.tailRecords[n]? = some t →
    ∀ p ∈ t.record.recordPointers,
      (∃ u, s.tailRecords[p]? = some u) ∨ ∃ d, s.backend.getRecord P.ndn p = some d
  confirmed : ∀ (n : Name) (t : TailingRecordState), s.tailRecords[n]? = some t →
    P.config.confirmWeight ≤ t.refSet.card → s.backend.getRecord P.ndn n = t.record.data
  light : ∀ (n : Name) (t : TailingRecordState), s.tailRecords[n]? = some t → ¬ IsDeep P t

theorem TailInv.tailHeld (h : TailInv P s) : TailHeld P s := ⟨h.sound, h.held⟩

/-- The invariant is about the tail and the database only. -/
theorem TailInv.congr (h : TailInv P s) (ht : s'.tailRecords = s.tailRecords)
    (hb : s'.backend = s.backend) : TailInv P s' := by
  refine ⟨?_, ?_, ?_, ?_⟩
  · rw [ht]; exact h.sound
  · rw [ht, hb]; exact h.held
  · rw [ht, hb]; exact h.confirmed
  · rw [ht]; exact h.light

section Step

variable (hpos : 1 ≤ P.config.confirmWeight) (hput : ∀ m, amb.putOk m = true)

/-- What a mark adds to a weight. -/
theorem Added.card_of_mem (h : Added P amb record endorseVerified n s s' marked names mid)
    {x : Name} (hx : x ∈ marked) {t : TailingRecordState} (ht : s.tailRecords[x]? = some t) :
    (t.mark (RecordName.getProducerPrefix n)).refSet.card = t.refSet.card + 1 := by
  obtain ⟨_, _, _, u, hu, ha⟩ := h.exists_of_mem hx
  rw [hu] at ht
  cases ht
  exact Finset.card_insert_of_notMem ha

include hpos hput

/-- After the walk a record of weight `confirmWeight` or more is stored by the end of the
call. -/
theorem Added.stored_of_le (h : Added P amb record endorseVerified n s s' marked names mid)
    (hs : TailInv P s) {x : Name} {t' : TailingRecordState}
    (ht' : walked amb record endorseVerified n s.tailRecords.lookup marked x = some t')
    (hc : P.config.confirmWeight ≤ t'.refSet.card) :
    s'.backend.getRecord P.ndn x = t'.record.data := by
  rcases h.walked_cases ht' with ⟨rfl, rfl⟩ | ⟨hne, t, ht, heq⟩
  · rw [newEntry, Finset.card_empty] at hc
    omega
  by_cases hcross : x ∈ marked ∧ t'.refSet.card = P.config.confirmWeight
  · exact h.backend_of_crossing hput hcross.1 ht' hcross.2
  · rw [h.backend_of_not_crossing hput fun u hx hu hcu => hcross ⟨hx, by
      rw [hu] at ht'; cases ht'; exact hcu⟩, heq, ite_mark_record]
    refine hs.confirmed x t ht ?_
    by_cases hx : x ∈ marked
    · have hcard := h.card_of_mem hx ht
      rw [heq, if_pos hx] at hc hcross
      have hne : (t.mark (RecordName.getProducerPrefix n)).refSet.card
          ≠ P.config.confirmWeight := fun heq => hcross ⟨hx, heq⟩
      omega
    · rwa [heq, if_neg hx] at hc

variable (hsmall : P.config.SmallWeights)
include hsmall

/-- **A successful call keeps the invariant.** -/
theorem TailInv.added (hs : TailInv P s) (hr : AddReady P s record endorseVerified n)
    (hgenesis : endorseVerified = true → RecordName.getRecordType n = .genesisRecord →
      record.recordPointers = [])
    (hheld : ∀ p ∈ record.recordPointers,
      (∃ u, s.tailRecords[p]? = some u) ∨ ∃ d, s.backend.getRecord P.ndn p = some d)
    (h : Added P amb record endorseVerified n s s' marked names mid) : TailInv P s' := by
  -- what is deep has reached `confirmWeight`
  have hdeep : StoresDeep P amb record endorseVerified n s s' marked := by
    intro x _ t ht hdeep
    obtain ⟨d, hd, _⟩ := (h.named x t ht).exists_data
    exact ⟨d, (h.stored_of_le hpos hput hs ht (hsmall.confirmWeight_le.trans hdeep.2)).trans hd⟩
  have htail := hs.tailHeld.added hr hgenesis hheld h hdeep
  refine ⟨htail.sound, htail.held,
    fun x t' ht' hc => h.stored_of_le hpos hput hs (h.walked_of_tail ht') hc, ?_⟩
  intro x t' ht' hdeep
  obtain ⟨hmid, _⟩ := (h.tail_iff x t').1 ht'
  obtain ⟨hw, hnot⟩ := (h.mid_iff x t').1 hmid
  rcases h.walked_cases hw with ⟨rfl, rfl⟩ | ⟨_, t, ht, rfl⟩
  · have := hsmall.confirmWeight_le.trans hdeep.2
    rw [newEntry, Finset.card_empty] at this
    omega
  · by_cases hx : x ∈ marked
    · exact hnot ⟨hx, hdeep⟩
    · rw [if_neg hx] at hdeep
      exact hs.light x t ht hdeep

end Step

end LedgerImpl

end DLedger
