import DLedger.Reentrant.Machine
import DLedger.Ledger.Stored

set_option autoImplicit false

/-! # The records while loops are under way

`Records` is the invariant of the tail, the database and the confirmations at a point where some
loops are at the records `current` and have the records `pending` before them. A pending record may
have reached `confirmWeight` without being stored, but then it is pending once, and no record that
two loops refer to is deep. So the loop that comes to a record confirms it, and it is the last one
that refers to it when it removes it.
-/

namespace DLedger

open Tlv (Bytes Block)

namespace LedgerImpl

variable {σ : Type} {P : Peer σ} {amb : Ambient} {s s' : LedgerImpl σ} {record : Record}
  {endorseVerified : Bool} {n : Name} {marked : Finset Name} {names current pending : List Name}

structure Records (P : Peer σ) (s : LedgerImpl σ) (current pending : List Name) : Prop where
  sound : TailSound P.ndn s.tailRecords.lookup
  held : ∀ (n : Name) (t : TailingRecordState), s.tailRecords[n]? = some t →
    ∀ p ∈ t.record.recordPointers,
      (∃ u, s.tailRecords[p]? = some u) ∨ ∃ d, s.backend.getRecord P.ndn p = some d
  heavy : ∀ (n : Name) (t : TailingRecordState) (d : Data), s.tailRecords[n]? = some t →
    s.backend.getRecord P.ndn n = some d → P.config.confirmWeight ≤ t.refSet.card
  once : ∀ n, (s.confirmations.map fun r => r.getRecordName P.ndn).count n
    = if (s.backend.getRecord P.ndn n).isSome then 1 else 0
  confirmed : ∀ (n : Name) (t : TailingRecordState), s.tailRecords[n]? = some t →
    P.config.confirmWeight ≤ t.refSet.card → (∃ d, s.backend.getRecord P.ndn n = some d) ∨
      (n ∈ pending ∧ t.refSet.card = P.config.confirmWeight)
  crossing : ∀ n ∈ pending, ∀ t, s.tailRecords[n]? = some t →
    t.refSet.card = P.config.confirmWeight →
      s.backend.getRecord P.ndn n = none ∧ (current ++ pending).count n = 1
  deep : ∀ n ∈ current ++ pending, ∀ t, s.tailRecords[n]? = some t → IsDeep P t →
    (current ++ pending).count n = 1
  tailing : ∀ n ∈ current ++ pending, ∃ t, s.tailRecords[n]? = some t ∧ t.refSet ≠ ∅

/-- A record that is ready and new. -/
structure InsertReady (P : Peer σ) (s : LedgerImpl σ) (record : Record) (endorseVerified : Bool)
    (n : Name) : Prop extends AddReady P s record endorseVerified n where
  unstored : s.backend.getRecord P.ndn n = none
  held : ∀ p ∈ record.recordPointers,
    (∃ u, s.tailRecords[p]? = some u) ∨ ∃ d, s.backend.getRecord P.ndn p = some d
  genesis : endorseVerified = true → RecordName.getRecordType n = .genesisRecord →
    record.recordPointers = []

/-! ## What does not change records -/

theorem Records.congr (h : Records P s current pending)
    (ht : ∀ x : Name, s'.tailRecords[x]? = s.tailRecords[x]?) (hb : s'.backend = s.backend)
    (hc : s'.confirmations = s.confirmations) : Records P s' current pending := by
  have hlookup : s'.tailRecords.lookup = s.tailRecords.lookup := funext ht
  refine ⟨?_, ?_, ?_, ?_, ?_, ?_, ?_, ?_⟩
  · rw [hlookup]; exact h.sound
  · simp only [ht, hb]; exact h.held
  · simp only [ht, hb]; exact h.heavy
  · rw [hb, hc]; exact h.once
  · simp only [ht, hb]; exact h.confirmed
  · simp only [ht, hb]; exact h.crossing
  · simp only [ht]; exact h.deep
  · simp only [ht]; exact h.tailing

/-- A record that the loops refer to is verified. -/
theorem Records.verified (h : Records P s current pending) {x : Name}
    (hx : x ∈ current ++ pending) : ∃ t d, s.tailRecords[x]? = some t ∧
      t.parentEndorseVerified = true ∧ t.record.data = some d ∧ Record.Named P.ndn x t.record := by
  obtain ⟨t, ht, hne⟩ := h.tailing x hx
  have hnamed := h.sound.named x t ht
  obtain ⟨d, hd, _⟩ := hnamed.exists_data
  refine ⟨t, d, ht, ?_, hd, hnamed⟩
  rw [h.sound.flags x t ht]
  by_contra hv
  rw [Bool.not_eq_true] at hv
  exact hne (h.sound.unmarked x t ht hv)

/-! ## Into the loop -/

/-- What `enterTailing` does with a record that is ready. -/
structure Entered (P : Peer σ) (amb : Ambient) (record : Record) (endorseVerified : Bool)
    (n : Name) (s s' : LedgerImpl σ) (marked : Finset Name) (names : List Name) : Prop where
  mem_names : ∀ x, x ∈ names ↔ x ∈ marked
  nodup : names.Nodup
  tail : ∀ x : Name, s'.tailRecords[x]?
    = walked amb record endorseVerified n s.tailRecords.lookup marked x
  rest : s' = (s.emit (.inserted record endorseVerified)).withTail s'.tailRecords
  /-- The call would go on like this if no callback appended. -/
  added : ∃ s₁ names₁ mid, Added P amb record endorseVerified n s s₁ marked names₁ mid

variable (amb) in
theorem AddReady.enterTailing (h : AddReady P s record endorseVerified n)
    (hsound : TailSound P.ndn s.tailRecords.lookup) :
    ∃ s' marked names,
      LedgerImpl.enterTailing P amb record endorseVerified s = (s', .ok (some names)) ∧
        Entered P amb record endorseVerified n s s' marked names := by
  have hnamed : ∀ (m : Name) (t : TailingRecordState), s.tailRecords[m]? = some t →
      Record.Named P.ndn m t.record := hsound.named
  obtain ⟨w, hrun⟩ := h.walk_returns amb hsound.walkable
  obtain ⟨marked, hwalk⟩ := newWalk_of_returns h.named h.name hrun
  obtain ⟨s₁, mid, _, _, hadded⟩ :=
    added_of_newWalk h.named h.fresh h.insertRecord_eq hnamed hrun hwalk fun x hx => by
      obtain ⟨he, hm⟩ := (hwalk.mem_marked x).1 hx
      exact hm.verified (h.walkable hsound.walkable) (if_pos rfl) he
  have hcontains : s.tailRecords.contains (record.getRecordName P.ndn) = false := by
    rw [h.named.getRecordName, Std.TreeMap.contains_eq_isSome_getElem?, h.fresh]
    rfl
  refine ⟨w.ledger, marked, w.updatedRecords.toList, ?_, hwalk.mem_toList,
    toList_nodup w.updatedRecords, congrFun hwalk.tail, hwalk.rest, ⟨s₁, _, mid, hadded⟩⟩
  unfold LedgerImpl.enterTailing
  simp only [hcontains, Bool.false_eq_true, if_false, h.insertRecord_eq, hrun]

/-- What a new record may do to the records that the loops refer to. Those that it marks it raises
neither to `confirmWeight` nor from it, as long as their turn is to come, and none of them to
`removeWeight`. -/
def Harmless (P : Peer σ) (current pending : List Name) (s : LedgerImpl σ) (x : Name) : Prop :=
  ∀ t, s.tailRecords[x]? = some t →
    (x ∈ pending → t.refSet.card ≠ P.config.confirmWeight ∧
      t.refSet.card + 1 ≠ P.config.confirmWeight) ∧
    (x ∈ current ++ pending →
      ¬ (P.removesDeep = true ∧ P.config.removeWeight ≤ t.refSet.card + 1))

theorem Entered.backend (h : Entered P amb record endorseVerified n s s' marked names) :
    s'.backend = s.backend := by
  rw [h.rest]
  rfl

theorem Entered.confirmations (h : Entered P amb record endorseVerified n s s' marked names) :
    s'.confirmations = s.confirmations := by
  rw [h.rest]
  rfl

theorem Entered.syncStack (h : Entered P amb record endorseVerified n s s' marked names) :
    s'.syncStack = s.syncStack := by
  rw [h.rest]
  rfl

/-- An entry after the walk is the new one, or an old one, marked or not. -/
theorem Entered.cases (h : Entered P amb record endorseVerified n s s' marked names) {x : Name}
    {t' : TailingRecordState} (ht' : s'.tailRecords[x]? = some t') :
    (n = x ∧ t' = newEntry amb record endorseVerified ∧ x ∉ marked) ∨
      n ≠ x ∧ ∃ t, s.tailRecords[x]? = some t ∧ t'.record = t.record ∧
        t'.addedTime = t.addedTime ∧ t.refSet ⊆ t'.refSet ∧
        (x ∈ marked ∧ t'.refSet.card = t.refSet.card + 1 ∨ x ∉ marked ∧ t'.refSet = t.refSet) := by
  obtain ⟨s₁, names₁, mid, hadded⟩ := h.added
  rw [h.tail x] at ht'
  rcases hadded.walked_cases ht' with ⟨rfl, rfl⟩ | ⟨hne, t, ht, rfl⟩
  · exact Or.inl ⟨rfl, rfl, hadded.notMem_self⟩
  · refine Or.inr ⟨hne, t, ht, ite_mark_record _ _ _, ite_mark_addedTime _ _ _, ?_, ?_⟩
    · intro a ha
      exact (mem_ite_mark _ _ _).2 (Or.inr ha)
    · by_cases hx : x ∈ marked
      · rw [if_pos hx]
        exact Or.inl ⟨hx, hadded.card_of_mem hx ht⟩
      · rw [if_neg hx]
        exact Or.inr ⟨hx, rfl⟩

/-- An old entry is still there. -/
theorem Entered.old (h : Entered P amb record endorseVerified n s s' marked names)
    (hfresh : s.tailRecords[n]? = none) {x : Name} {t : TailingRecordState}
    (ht : s.tailRecords[x]? = some t) :
    ∃ t', s'.tailRecords[x]? = some t' ∧ t.refSet ⊆ t'.refSet := by
  have hne : n ≠ x := by
    rintro rfl
    rw [hfresh] at ht
    cases ht
  have hx : s'.tailRecords[x]?
      = some (if x ∈ marked then t.mark (RecordName.getProducerPrefix n) else t) := by
    rw [h.tail x, Added.walked_of_ne hne, ht]
    rfl
  exact ⟨_, hx, fun a ha => (mem_ite_mark _ _ _).2 (Or.inr ha)⟩

/-- What is marked was a tailing record. -/
theorem Entered.marked_tailing (h : Entered P amb record endorseVerified n s s' marked names)
    {x : Name} (hx : x ∈ marked) : ∃ t', s'.tailRecords[x]? = some t' ∧ t'.refSet ≠ ∅ := by
  obtain ⟨s₁, names₁, mid, hadded⟩ := h.added
  obtain ⟨_, hne, _, t, ht, _⟩ := hadded.exists_of_mem hx
  have heq : s'.tailRecords[x]? = some (t.mark (RecordName.getProducerPrefix n)) := by
    rw [h.tail x, Added.walked_of_ne hne, ht, Option.map_some, if_pos hx]
  exact ⟨_, heq, Finset.insert_ne_empty _ _⟩

/-- **A new record that does no harm keeps the invariant**, and what it marks becomes pending. -/
theorem Records.entered (hs : Records P s current pending) (hpos : 1 ≤ P.config.confirmWeight)
    (hr : InsertReady P s record endorseVerified n)
    (hcurrent : ∀ x ∈ current, ∀ t, s.tailRecords[x]? = some t →
      P.config.confirmWeight ≤ t.refSet.card)
    (h : Entered P amb record endorseVerified n s s' marked names)
    (hharm : ∀ x ∈ marked, Harmless P current pending s x) :
    Records P s' current (names ++ pending) := by
  obtain ⟨s₁, names₁, mid, hadded⟩ := h.added
  have hperm : ∀ x, (current ++ (names ++ pending)).count x
      = names.count x + (current ++ pending).count x := by
    intro x
    simp only [List.count_append]
    omega
  -- what is marked and was referred to before does not reach a threshold
  have hnew : ∀ x ∈ marked, ∀ t, s.tailRecords[x]? = some t →
      t.refSet.card + 1 = P.config.confirmWeight →
      (current ++ (names ++ pending)).count x = 1 := by
    intro x hx t ht hcard
    have hout : x ∉ current ++ pending := by
      rw [List.mem_append, not_or]
      refine ⟨fun hc => ?_, fun hp => (((hharm x hx) t ht).1 hp).2 hcard⟩
      have := hcurrent x hc t ht
      omega
    rw [hperm, List.count_eq_zero.2 hout, List.count_eq_one_of_mem h.nodup ((h.mem_names x).2 hx)]
  -- in each part an entry is the new one, which no producer counts yet, or an old one
  refine ⟨?_, ?_, ?_, ?_, ?_, ?_, ?_, ?_⟩
  · rw [show s'.tailRecords.lookup = _ from funext h.tail]
    exact hadded.sound hs.sound hr.toAddReady hr.genesis
  · intro x t' ht' p hp
    rw [h.backend]
    have hold : (∃ u, s.tailRecords[p]? = some u) ∨
        ∃ d, s.backend.getRecord P.ndn p = some d := by
      rcases h.cases ht' with ⟨rfl, rfl, _⟩ | ⟨_, t, ht, hrec, _⟩
      · exact hr.held p hp
      · exact hs.held x t ht p (hrec ▸ hp)
    rcases hold with ⟨u, hu⟩ | hd
    · obtain ⟨u', hu', _⟩ := h.old hr.fresh hu
      exact Or.inl ⟨u', hu'⟩
    · exact Or.inr hd
  · intro x t' d ht' hd
    rw [h.backend] at hd
    rcases h.cases ht' with ⟨rfl, _⟩ | ⟨_, t, ht, _, _, hsub, _⟩
    · rw [hr.unstored] at hd
      cases hd
    · exact (hs.heavy x t d ht hd).trans (Finset.card_le_card hsub)
  · rw [h.backend, h.confirmations]
    exact hs.once
  · intro x t' ht' hc
    rw [h.backend]
    rcases h.cases ht' with ⟨rfl, rfl, _⟩ | ⟨_, t, ht, _, _, _, ⟨hx, hcard⟩ | ⟨hx, hcard⟩⟩
    · rw [newEntry, Finset.card_empty] at hc
      omega
    · by_cases hlight : t.refSet.card + 1 = P.config.confirmWeight
      · exact Or.inr ⟨List.mem_append_left _ ((h.mem_names x).2 hx), hcard.trans hlight⟩
      · rcases hs.confirmed x t ht (by omega) with hd | ⟨hp, heq⟩
        · exact Or.inl hd
        · exact absurd heq ((hharm x hx) t ht |>.1 hp).1
    · rw [hcard] at hc ⊢
      exact (hs.confirmed x t ht hc).imp_right fun hp =>
        ⟨List.mem_append_right _ hp.1, hp.2⟩
  · intro x hx t' ht' hc
    rw [h.backend]
    rcases h.cases ht' with ⟨rfl, rfl, _⟩ | ⟨_, t, ht, _, _, _, ⟨hm, hcard⟩ | ⟨hm, hcard⟩⟩
    · rw [newEntry, Finset.card_empty] at hc
      omega
    · refine ⟨?_, hnew x hm t ht (by omega)⟩
      cases hd : s.backend.getRecord P.ndn x with
      | none => rfl
      | some d =>
          have := hs.heavy x t d ht hd
          omega
    · have hnot : x ∉ names := fun hx => hm ((h.mem_names x).1 hx)
      rw [hcard] at hc
      rw [hperm, List.count_eq_zero.2 hnot, Nat.zero_add]
      exact hs.crossing x ((List.mem_append.1 hx).resolve_left hnot) t ht hc
  · intro x hx t' ht' hdeep
    rcases h.cases ht' with ⟨rfl, rfl, _⟩ | ⟨_, t, ht, _, _, _, ⟨hm, hcard⟩ | ⟨hm, hcard⟩⟩
    · obtain ⟨u, hu, hne⟩ : ∃ u, s.tailRecords[n]? = some u ∧ u.refSet ≠ ∅ := by
        rw [List.mem_append, List.mem_append] at hx
        rcases hx with hx | hx | hx
        · exact hs.tailing n (List.mem_append_left _ hx)
        · exact absurd ((h.mem_names n).1 hx) hadded.notMem_self
        · exact hs.tailing n (List.mem_append_right _ hx)
      rw [hr.fresh] at hu
      cases hu
    · have hout : x ∉ current ++ pending := fun hmem =>
        ((hharm x hm) t ht).2 hmem ⟨hdeep.1, hcard ▸ hdeep.2⟩
      rw [hperm, List.count_eq_zero.2 hout,
        List.count_eq_one_of_mem h.nodup ((h.mem_names x).2 hm)]
    · have hnot : x ∉ names := fun hx => hm ((h.mem_names x).1 hx)
      have hmem : x ∈ current ++ pending := by
        simp only [List.mem_append] at hx ⊢
        tauto
      rw [hperm, List.count_eq_zero.2 hnot, Nat.zero_add]
      refine hs.deep x hmem t ht ⟨hdeep.1, ?_⟩
      rw [← hcard]
      exact hdeep.2
  · intro x hx
    by_cases hm : x ∈ marked
    · exact h.marked_tailing hm
    · have hmem : x ∈ current ++ pending := by
        have hnot : x ∉ names := fun hx => hm ((h.mem_names x).1 hx)
        simp only [List.mem_append] at hx ⊢
        tauto
      obtain ⟨t, ht, hne⟩ := hs.tailing x hmem
      obtain ⟨t', ht', hsub⟩ := h.old hr.fresh ht
      exact ⟨t', ht', fun hempty => hne (Finset.subset_empty.1 (hempty ▸ hsub))⟩

/-! ## A record whose turn has come -/

/-- What a loop does when it comes to a tailing record. -/
structure Visited (P : Peer σ) (n : Name) (t : TailingRecordState) (s s' : LedgerImpl σ) :
    Prop where
  tail : ∀ x : Name, s'.tailRecords[x]? = s.tailRecords[x]?
  syncStack : s'.syncStack = s.syncStack
  backend : ∀ x, s'.backend.getRecord P.ndn x
    = if t.refSet.card = P.config.confirmWeight ∧ n = x then t.record.data
      else s.backend.getRecord P.ndn x
  confirmations : s'.confirmations
    = (if t.refSet.card = P.config.confirmWeight then [t.record] else []) ++ s.confirmations

/-- The loop finds the entry of the record, and does not set the flag. -/
theorem Records.visitUpdated (h : Records P s current (n :: pending)) (hput : Ambient.Writes amb) :
    ∃ t s' callback, s.tailRecords[n]? = some t ∧
      LedgerImpl.visitUpdated P amb n (s, false) = ((s', false), .ok callback) ∧
      (callback = true → t.refSet.card = P.config.confirmWeight) ∧ Visited P n t s s' := by
  obtain ⟨t, d, ht, hv, hd, hnamed⟩ :=
    h.verified (List.mem_append_right current List.mem_cons_self)
  obtain ⟨_, hgetD⟩ := insertIfNew_of_tailing ht
  obtain ⟨mid, hmid, hconfirm⟩ := confirmUpdated_spec P amb ht hv hd
  refine ⟨t, (confirmAll P amb (LedgerImpl.crossing s.tailRecords.lookup P.config.confirmWeight [n])
    s).withTail mid, t.refSet.card = P.config.confirmWeight && invokesCallback P.ndn t.record, ht,
    ?_, ?_, hmid, ?_, ?_, ?_⟩
  · unfold LedgerImpl.visitUpdated
    simp only [hgetD]
    rw [show ({ s with tailRecords := s.tailRecords.insertIfNew n {} } : LedgerImpl σ)
      = s.withTail (s.tailRecords.insertIfNew n {}) from rfl, hconfirm]
  · intro hcallback
    rw [Bool.and_eq_true, decide_eq_true_eq] at hcallback
    exact hcallback.1
  · exact confirmAll_syncStack P amb _ s
  -- one record can cross here, and it crosses when its weight is the threshold
  · intro x
    rw [withTail_backend]
    by_cases hc : t.refSet.card = P.config.confirmWeight
    · have hcross : LedgerImpl.crossing s.tailRecords.lookup P.config.confirmWeight [n]
          = [t.record] := by
        simp [LedgerImpl.crossing, ht, hc]
      rw [hcross,
        show confirmAll P amb [t.record] s = (onRecordConfirmed P amb t.record s).1 from rfl,
        onRecordConfirmed_backend P amb hd, hput, Backend.getRecord_putRecord,
        (hnamed.ofData_eq hd).2, hd]
      simp [hc]
    · have hcross : LedgerImpl.crossing s.tailRecords.lookup P.config.confirmWeight [n] = [] := by
        simp [LedgerImpl.crossing, ht, hc]
      rw [hcross, if_neg fun hx => hc hx.1]
      rfl
  · rw [withTail_confirmations]
    by_cases hc : t.refSet.card = P.config.confirmWeight
    · have hcross : LedgerImpl.crossing s.tailRecords.lookup P.config.confirmWeight [n]
          = [t.record] := by
        simp [LedgerImpl.crossing, ht, hc]
      rw [hcross, if_pos hc]
      exact onRecordConfirmed_confirmations P amb hd s
    · have hcross : LedgerImpl.crossing s.tailRecords.lookup P.config.confirmWeight [n] = [] := by
        simp [LedgerImpl.crossing, ht, hc]
      rw [hcross, if_neg hc]
      rfl

/-- **A visit keeps the invariant**, and the record is pending no more. -/
theorem Records.visited (h : Records P s current (n :: pending)) {t : TailingRecordState}
    (ht : s.tailRecords[n]? = some t) (hs : Visited P n t s s') :
    Records P s' (n :: current) pending := by
  have hnamed := h.sound.named n t ht
  obtain ⟨d, hd, _⟩ := hnamed.exists_data
  have hperm : ((n :: current) ++ pending).Perm (current ++ n :: pending) :=
    List.perm_middle.symm
  -- a pending record that crosses is another one
  have hother : ∀ x ∈ pending, ∀ u, s.tailRecords[x]? = some u →
      u.refSet.card = P.config.confirmWeight → n ≠ x := by
    rintro x hx u hu hc rfl
    have hone := (h.crossing n List.mem_cons_self u hu hc).2
    have hpos := List.count_pos_iff.2 hx
    rw [List.count_append, List.count_cons_self] at hone
    omega
  have hmono : ∀ x, (∃ d, s.backend.getRecord P.ndn x = some d) →
      ∃ d, s'.backend.getRecord P.ndn x = some d := by
    rintro x ⟨e, he⟩
    rw [hs.backend x]
    split_ifs
    · exact ⟨d, hd⟩
    · exact ⟨e, he⟩
  refine ⟨?_, ?_, ?_, ?_, ?_, ?_, ?_, ?_⟩
  · rw [show s'.tailRecords.lookup = s.tailRecords.lookup from funext hs.tail]
    exact h.sound
  · intro x u hu p hp
    rw [hs.tail] at hu
    rw [hs.tail p]
    exact (h.held x u hu p hp).imp_right (hmono p)
  · intro x u e hu he
    rw [hs.tail] at hu
    rw [hs.backend x] at he
    split_ifs at he with hx
    · obtain ⟨hc, rfl⟩ := hx
      rw [ht] at hu
      cases hu
      exact hc.ge
    · exact h.heavy x u e hu he
  · intro x
    have honce := h.once x
    by_cases hcx : t.refSet.card = P.config.confirmWeight ∧ n = x
    · obtain ⟨hc, rfl⟩ := hcx
      rw [(h.crossing n List.mem_cons_self t ht hc).1] at honce
      have hstored : (s'.backend.getRecord P.ndn n).isSome = true := by
        rw [hs.backend n, if_pos ⟨hc, rfl⟩, hd]
        rfl
      rw [hs.confirmations, if_pos hc, List.singleton_append, List.map_cons,
        hnamed.getRecordName, List.count_cons_self, honce, if_pos hstored]
      rfl
    · rw [hs.backend x, if_neg hcx, hs.confirmations, List.map_append, List.count_append, honce,
        Nat.add_eq_right, List.count_eq_zero]
      split_ifs with hc
      · rw [List.map_singleton, hnamed.getRecordName, List.mem_singleton]
        exact fun heq => hcx ⟨hc, heq.symm⟩
      · exact List.not_mem_nil
  · intro x u hu hc
    rw [hs.tail] at hu
    rcases h.confirmed x u hu hc with hstored | ⟨hx, hcard⟩
    · exact Or.inl (hmono x hstored)
    · rcases List.mem_cons.1 hx with rfl | hx
      · rw [ht] at hu
        cases hu
        exact Or.inl ⟨d, by rw [hs.backend, if_pos ⟨hcard, rfl⟩, hd]⟩
      · exact Or.inr ⟨hx, hcard⟩
  · intro x hx u hu hc
    rw [hs.tail] at hu
    have hne := hother x hx u hu hc
    obtain ⟨hnone, hone⟩ := h.crossing x (List.mem_cons_of_mem n hx) u hu hc
    refine ⟨?_, hperm.count_eq x ▸ hone⟩
    rw [hs.backend x, if_neg fun hcx => hne hcx.2, hnone]
  · intro x hx u hu hdeep
    rw [hs.tail] at hu
    exact hperm.count_eq x ▸ h.deep x (hperm.mem_iff.1 hx) u hu hdeep
  · intro x hx
    rw [hs.tail x]
    exact h.tailing x (hperm.mem_iff.1 hx)

/-! ## Erased entries -/

/-- Entries may leave the tail that no loop refers to from then on, when what points to them leaves
with them or they are stored. -/
theorem Records.mono (h : Records P s current pending) {current' : List Name}
    (hb : s'.backend = s.backend) (hc : s'.confirmations = s.confirmations)
    (hcurrent : current'.Sublist current)
    (hsub : ∀ (x : Name) (t : TailingRecordState), s'.tailRecords[x]? = some t →
      s.tailRecords[x]? = some t)
    (hkept : ∀ x ∈ current' ++ pending, ∀ t, s.tailRecords[x]? = some t →
      s'.tailRecords[x]? = some t)
    (hheld : ∀ (x : Name) (t : TailingRecordState), s'.tailRecords[x]? = some t →
      ∀ p ∈ t.record.recordPointers, ∀ u, s.tailRecords[p]? = some u →
        s'.tailRecords[p]? = some u ∨ ∃ d, s.backend.getRecord P.ndn p = some d) :
    Records P s' current' pending := by
  have hsublist : (current' ++ pending).Sublist (current ++ pending) :=
    hcurrent.append (List.Sublist.refl pending)
  have hone : ∀ x ∈ current' ++ pending, (current ++ pending).count x = 1 →
      (current' ++ pending).count x = 1 := by
    intro x hx hcount
    have hle := hsublist.count_le x
    have hpos := List.count_pos_iff.2 hx
    omega
  -- all but `held` and `tailing` say something of each entry that is left
  refine ⟨h.sound.mono hsub, ?_, ?_, ?_, ?_, ?_, ?_, ?_⟩
  · intro x t ht p hp
    rw [hb]
    rcases h.held x t (hsub x t ht) p hp with ⟨u, hu⟩ | hd
    · exact (hheld x t ht p hp u hu).imp_left fun hu' => ⟨u, hu'⟩
    · exact Or.inr hd
  · intro x t d ht hd
    rw [hb] at hd
    exact h.heavy x t d (hsub x t ht) hd
  · rw [hb, hc]
    exact h.once
  · intro x t ht hcard
    rw [hb]
    exact h.confirmed x t (hsub x t ht) hcard
  · intro x hx t ht hcard
    rw [hb]
    obtain ⟨hnone, hcount⟩ := h.crossing x hx t (hsub x t ht) hcard
    exact ⟨hnone, hone x (List.mem_append_right current' hx) hcount⟩
  · intro x hx t ht hdeep
    exact hone x hx (h.deep x (hsublist.subset hx) t (hsub x t ht) hdeep)
  · intro x hx
    obtain ⟨t, ht, hne⟩ := h.tailing x (hsublist.subset hx)
    exact ⟨t, hkept x hx t ht, hne⟩

/-- A record that its loop removes is stored, and no other loop refers to it. -/
theorem Records.removeUpdated (h : Records P s (n :: current) pending)
    (hsmall : P.config.SmallWeights) :
    Records P (LedgerImpl.removeUpdated P n (s.tailRecords.getD n {}) s) current pending := by
  obtain ⟨t, ht, _⟩ := h.tailing n List.mem_cons_self
  have hgetD : s.tailRecords.getD n {} = t := by
    rw [Std.TreeMap.getD_eq_getD_getElem?, ht, Option.getD_some]
  rw [hgetD, LedgerImpl.removeUpdated]
  by_cases hdeep : IsDeep P t
  · rw [if_pos (by simpa [IsDeep] using hdeep)]
    have hcount := h.deep n List.mem_cons_self t ht hdeep
    rw [List.cons_append, List.count_cons_self, Nat.add_eq_right, List.count_eq_zero] at hcount
    -- a deep record is confirmed, and it is pending in no loop that could still confirm it
    have hstored : ∃ d, s.backend.getRecord P.ndn n = some d := by
      rcases h.confirmed n t ht (hsmall.confirmWeight_le.trans hdeep.2) with hd | ⟨hp, _⟩
      · exact hd
      · exact absurd (List.mem_append_right current hp) hcount
    have hget : ∀ x : Name, (s.eraseTail n).tailRecords[x]?
        = if n = x then none else s.tailRecords[x]? := by
      intro x
      simp [eraseTail, Std.TreeMap.getElem?_erase]
    refine h.mono rfl rfl (List.sublist_cons_self n current) ?_ ?_ ?_
    · intro x u hu
      rw [hget] at hu
      split_ifs at hu
      exact hu
    · intro x hx u hu
      have hne : n ≠ x := by
        rintro rfl
        exact hcount hx
      rw [hget, if_neg hne]
      exact hu
    · intro x u _ p _ v hv
      by_cases hp : n = p
      · exact Or.inr (hp ▸ hstored)
      · rw [hget, if_neg hp]
        exact Or.inl hv
  · rw [if_neg (by simpa [IsDeep] using hdeep)]
    exact h.mono rfl rfl (List.sublist_cons_self n current) (fun _ _ hu => hu)
      (fun _ _ _ hu => hu) fun _ _ _ _ _ _ hu => Or.inl hu

/-- Eviction takes what points to an evicted record with it. -/
theorem Records.removeTimeoutRecords (h : Records P s current pending)
    (hkept : ∀ x ∈ current ++ pending, ¬ Evicted s.tailRecords.lookup P.config amb x) :
    Records P (LedgerImpl.removeTimeoutRecords P amb s) current pending := by
  have htail := removeTimeoutRecords_getElem? P amb s
  refine h.mono rfl rfl (List.Sublist.refl current) (fun x t ht => ((htail x t).1 ht).1) ?_ ?_
  · intro x hx t ht
    exact (htail x t).2 ⟨ht, hkept x hx⟩
  · intro x t ht p hp u hu
    obtain ⟨ht, hx⟩ := (htail x t).1 ht
    exact Or.inl ((htail p u).2 ⟨hu, fun he => hx (he.of_pointer ht hu hp)⟩)

/-- A record of weight `confirmWeight` or more is not evicted. -/
theorem Records.not_evicted (h : Records P s current pending) {t : TailingRecordState}
    (ht : s.tailRecords[n]? = some t) (hc : P.config.confirmWeight ≤ t.refSet.card) :
    ¬ Evicted s.tailRecords.lookup P.config amb n := by
  intro he
  have hlight : t.refSet.card < P.config.confirmWeight := by
    refine he.induction (motive := fun _ t => t.refSet.card < P.config.confirmWeight)
      (fun _ _ _ hexp => hexp.1) (fun x t y u ht hu hy ih => ?_) ht
    exact lt_of_le_of_lt (h.sound.card_le ht hy hu) ih
  omega

end LedgerImpl

end DLedger
