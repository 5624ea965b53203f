import DLedger.Reentrant.Records
import DLedger.Ledger.Send

set_option autoImplicit false

/-! # The invariant of the machine

The records of the ledger are those of the loops under way, all loops but the innermost are in a
callback, and no reference that a loop holds has become invalid. A loop evicts at its end, so none
of the records that an outer loop has still to visit may be evicted then.
-/

namespace DLedger

open Tlv (Bytes Block)

/-! ## Eviction in a growing tail -/

/-- An entry that was there before is evicted only if it was to be evicted before: marks make
records younger in no way, and an old entry points to old entries. -/
theorem Evicted.later {lookup lookup' : Name → Option TailingRecordState} {config : Config}
    {amb : Ambient}
    (hentry : ∀ x t t', lookup x = some t → lookup' x = some t' →
      t'.record = t.record ∧ t'.addedTime = t.addedTime ∧ t.refSet ⊆ t'.refSet)
    (hpointer : ∀ x t, lookup x = some t → ∀ y ∈ t.record.recordPointers, ∀ u',
      lookup' y = some u' → ∃ u, lookup y = some u)
    {x : Name} {t : TailingRecordState} (ht : lookup x = some t)
    (h : Evicted lookup' config amb x) : Evicted lookup config amb x := by
  obtain ⟨t', ht'⟩ := h.exists_lookup
  refine h.induction (motive := fun x _ => ∀ t, lookup x = some t → Evicted lookup config amb x)
    (fun x t' ht' hexp t ht => ?_) (fun x t' y u' ht' hu' hy ih t ht => ?_) ht' t ht
  · obtain ⟨_, htime, hsub⟩ := hentry x t t' ht ht'
    refine Evicted.of_expired ht ⟨?_, ?_⟩
    · exact lt_of_le_of_lt (Finset.card_le_card hsub) hexp.1
    · rw [← htime]
      exact hexp.2
  · rw [(hentry x t t' ht ht').1] at hy
    obtain ⟨u, hu⟩ := hpointer x t ht y hy u' hu'
    exact Evicted.of_pointer ht hu hy (ih u hu)

namespace LedgerImpl

variable {σ : Type} {P : Peer σ} {amb : Ambient} {s s' : LedgerImpl σ} {record : Record}
  {endorseVerified : Bool} {n : Name} {marked : Finset Name} {names : List Name}

/-- The tail has changed: the entries that stay have aged, and an old entry points to old ones. -/
structure Later (s s' : LedgerImpl σ) : Prop where
  entry : ∀ (x : Name) (t t' : TailingRecordState), s.tailRecords[x]? = some t →
    s'.tailRecords[x]? = some t' →
      t'.record = t.record ∧ t'.addedTime = t.addedTime ∧ t.refSet ⊆ t'.refSet
  pointer : ∀ (x : Name) (t : TailingRecordState), s.tailRecords[x]? = some t →
    ∀ y ∈ t.record.recordPointers, ∀ u', s'.tailRecords[y]? = some u' →
      ∃ u, s.tailRecords[y]? = some u

theorem Later.of_subset (hsub : ∀ (x : Name) (t : TailingRecordState),
    s'.tailRecords[x]? = some t → s.tailRecords[x]? = some t) : Later s s' := by
  refine ⟨fun x t t' ht ht' => ?_, fun _ _ _ y _ u' hu' => ⟨u', hsub y u' hu'⟩⟩
  rw [hsub x t' ht'] at ht
  cases ht
  exact ⟨rfl, rfl, Finset.Subset.refl _⟩

theorem Entered.later (h : Entered P amb record endorseVerified n s s' marked names)
    (hr : AddReady P s record endorseVerified n) : Later s s' := by
  refine ⟨fun y u u' hu hu' => ?_, fun y u hu p hp v' hv' => ?_⟩
  · rcases h.cases hu' with ⟨rfl, _⟩ | ⟨_, w, hw, hrec, htime, hsub, _⟩
    · rw [hr.fresh] at hu
      cases hu
    · rw [hu] at hw
      cases hw
      exact ⟨hrec, htime, hsub⟩
  · rcases h.cases hv' with ⟨rfl, _⟩ | ⟨_, v, hv, _⟩
    · exact absurd hp (hr.unpointed y u hu)
    · exact ⟨v, hv⟩

theorem Later.not_evicted (h : Later s s') {x : Name} {t : TailingRecordState}
    (ht : s.tailRecords[x]? = some t) (hx : ¬ Evicted s.tailRecords.lookup P.config amb x) :
    ¬ Evicted s'.tailRecords.lookup P.config amb x :=
  fun he => hx (he.later h.entry h.pointer ht)

/-! ## The sync stack -/

/-- What waits goes on waiting when none of it becomes seen. -/
theorem StackInv.mono {stack stack' : List (Record × Int)} (hs : StackInv P (s.withStack stack))
    (hsub : stack'.Sublist stack)
    (hunseen : ∀ it ∈ stack', ∀ x, it.1.getRecordName P.ndn = x → s.tailRecords[x]? = none →
      s.backend.getRecord P.ndn x = none →
        s'.tailRecords[x]? = none ∧ s'.backend.getRecord P.ndn x = none) :
    StackInv P (s'.withStack stack') := by
  refine ⟨fun it hit => ?_, fun it hit => hs.pointerName it (hsub.subset hit),
    fun it hit => hs.type_ne it (hsub.subset hit), hs.nodup.sublist (hsub.map _)⟩
  obtain ⟨x, hx, ht, hb⟩ := hs.waiting it (hsub.subset hit)
  exact ⟨x, hx, hunseen it hit x hx.getRecordName ht hb⟩

/-! ## The loops -/

/-- What holds of a loop: the reference that it holds is valid, and a record whose callback runs has
the weight `confirmWeight` or more. -/
structure LoopInv (P : Peer σ) (s : LedgerImpl σ) (l : Loop) : Prop where
  writes : Ambient.Writes l.amb
  flag : l.referenceNeedUpdate = false
  valid : ∀ v, l.visit = some v → v.valid = true
  heavy : ∀ v, l.visit = some v → v.callback = true →
    ∃ t, s.tailRecords[v.updatedRecord]? = some t ∧ P.config.confirmWeight ≤ t.refSet.card

theorem LoopInv.later {l : Loop} (hl : LoopInv P s l) (h : Later s s')
    (hkept : ∀ v, l.visit = some v → ∃ t', s'.tailRecords[v.updatedRecord]? = some t') :
    LoopInv P s' l := by
  refine ⟨hl.writes, hl.flag, hl.valid, fun v hv hcallback => ?_⟩
  obtain ⟨t, ht, hc⟩ := hl.heavy v hv hcallback
  obtain ⟨t', ht'⟩ := hkept v hv
  obtain ⟨_, _, hsub⟩ := h.entry _ t t' ht ht'
  exact ⟨t', ht', hc.trans (Finset.card_le_card hsub)⟩

/-- What is still there stays valid. -/
theorem LoopInv.revalidate {l : Loop} (hl : LoopInv P s l) {tail : TailMap}
    (hkept : ∀ v, l.visit = some v → ∃ t, tail[v.updatedRecord]? = some t) :
    l.revalidate tail = l := by
  obtain ⟨_, _, visit, _, _⟩ := l
  cases visit with
  | none => rfl
  | some v =>
      obtain ⟨t, ht⟩ := hkept v rfl
      have hvalid : v.valid = true := hl.valid v rfl
      have hcontains : tail.contains v.updatedRecord = true := by
        rw [Std.TreeMap.contains_eq_isSome_getElem?, ht]
        rfl
      simp only [Loop.revalidate, Option.map_some, hcontains, Bool.and_true]

end LedgerImpl

namespace Machine

open LedgerImpl

variable {σ : Type} {P : Peer σ} {amb : Ambient} {m m' : Machine σ} {s s' : LedgerImpl σ}
  {record : Record} {endorseVerified : Bool} {n : Name} {marked : Finset Name} {names : List Name}
  {l : Loop} {below : List Loop} {scan : Option Scan}

structure LoopsInv (P : Peer σ) (m : Machine σ) : Prop where
  records : Records P m.ledger m.current m.pending
  loops : ∀ l ∈ m.loops, LoopInv P m.ledger l
  nested : ∀ l ∈ m.loops.tail, l.visit.any Visit.callback = true
  kept : m.loops.Pairwise fun l l' => ∀ x ∈ l'.updatedRecords,
    ¬ Evicted m.ledger.tailRecords.lookup P.config l.amb x
  scan : ∀ q, m.scan = some q →
    Ambient.Writes q.amb ∧ m.ledger.syncStack = q.before ++ q.rest

structure Inv (P : Peer σ) (m : Machine σ) : Prop extends LoopsInv P m where
  stack : StackInv P (m.ledger.withStack m.waiting)

theorem mem_current {x : Name} :
    x ∈ m.current ↔ ∃ l ∈ m.loops, ∃ v, l.visit = some v ∧ v.updatedRecord = x := by
  simp [current]

theorem mem_pending {x : Name} : x ∈ m.pending ↔ ∃ l ∈ m.loops, x ∈ l.updatedRecords := by
  simp [pending]

/-- The loops of an old point go on, with their records in the tail. -/
theorem LoopsInv.loops_later (h : LoopsInv P m) (hlater : Later m.ledger s')
    {current' pending' : List Name} (hr : Records P s' current' pending') (hl : l ∈ m.loops)
    (hcurrent : ∀ v, l.visit = some v → v.updatedRecord ∈ current') : LoopInv P s' l := by
  refine (h.loops l hl).later hlater fun v hv => ?_
  obtain ⟨t, ht, _⟩ := hr.tailing _ (List.mem_append_left pending' (hcurrent v hv))
  exact ⟨t, ht⟩

/-- What was not evicted is not. -/
theorem LoopsInv.kept_later (h : LoopsInv P m) (hlater : Later m.ledger s') :
    m.loops.Pairwise fun l l' => ∀ x ∈ l'.updatedRecords,
      ¬ Evicted s'.tailRecords.lookup P.config l.amb x := by
  refine h.kept.imp_of_mem fun {l l'} _ hl' hkept x hx => ?_
  obtain ⟨t, ht, _⟩ := h.records.tailing x
    (List.mem_append_right _ (mem_pending.2 ⟨l', hl', hx⟩))
  exact hlater.not_evicted ht (hkept x hx)

/-- Where a callback runs, or nothing is under way, every loop is in a callback. -/
theorem LoopsInv.callback (h : LoopsInv P m) (hcalls : m.loops = [] ∨ m.inCallback = true)
    (hl : l ∈ m.loops) : l.visit.any Visit.callback = true := by
  rcases hcalls with hnil | hcallback
  · rw [hnil] at hl
    cases hl
  · cases hloops : m.loops with
    | nil => rw [hloops] at hl; cases hl
    | cons l' below =>
        rw [inCallback, hloops] at hcallback
        rw [hloops] at hl
        rcases List.mem_cons.1 hl with rfl | hl
        · exact hcallback
        · exact h.nested l (by rw [hloops]; exact hl)

/-- Then all that the loops are at is confirmed. -/
theorem LoopsInv.current_heavy (h : LoopsInv P m) (hcalls : m.loops = [] ∨ m.inCallback = true) :
    ∀ x ∈ m.current, ∀ t, m.ledger.tailRecords[x]? = some t →
      P.config.confirmWeight ≤ t.refSet.card := by
  intro x hx t ht
  obtain ⟨l, hl, v, hv, rfl⟩ := mem_current.1 hx
  have hcallback := h.callback hcalls hl
  rw [hv] at hcallback
  obtain ⟨u, hu, hc⟩ := (h.loops l hl).heavy v hv hcallback
  rw [ht] at hu
  cases hu
  exact hc

/-! ## Into a loop and through it -/

/-- **A new loop**, for a record whose walk does no harm to the loops under way. -/
theorem Inv.push (h : Inv P m) (hpos : 1 ≤ P.config.confirmWeight)
    (hcalls : m.loops = [] ∨ m.inCallback = true)
    (hr : InsertReady P m.ledger record endorseVerified n)
    (hentered : Entered P amb record endorseVerified n m.ledger s' marked names)
    (hput : Ambient.Writes amb) (hharm : ∀ x ∈ marked, Harmless P m.current m.pending m.ledger x)
    (hkept : ∀ x ∈ m.pending, ¬ Evicted m.ledger.tailRecords.lookup P.config amb x)
    {creates : Bool} (hsub : (m.push amb creates s' names).waiting.Sublist m.waiting)
    (hother : ∀ it ∈ (m.push amb creates s' names).waiting, it.1.getRecordName P.ndn ≠ n) :
    Inv P (m.push amb creates s' names) := by
  have hlater := hentered.later hr.toAddReady
  have hrecords : Records P s' m.current (names ++ m.pending) :=
    h.records.entered hpos hr (h.current_heavy hcalls) hentered hharm
  -- the new loop is at no record yet; the loops below only see their entries grow heavier
  refine ⟨⟨hrecords, ?_, ?_, ?_, ?_⟩, ?_⟩
  · intro l hl
    rcases List.mem_cons.1 hl with rfl | hl
    · refine ⟨hput, rfl, ?_, ?_⟩ <;> intro v hv <;> cases hv
    · exact h.loops_later hlater hrecords hl fun v hv => mem_current.2 ⟨l, hl, v, hv, rfl⟩
  · exact fun l hl => h.callback hcalls hl
  · refine List.pairwise_cons.2 ⟨fun l' hl' x hx => ?_, h.kept_later hlater⟩
    have hpending : x ∈ m.pending := mem_pending.2 ⟨l', hl', hx⟩
    obtain ⟨t, ht, _⟩ := h.records.tailing x (List.mem_append_right _ hpending)
    exact hlater.not_evicted ht (hkept x hpending)
  · intro q hq
    obtain ⟨hwrites, hstack⟩ := h.scan q hq
    exact ⟨hwrites, hentered.syncStack.trans hstack⟩
  · refine h.stack.mono hsub fun it hit x hx ht hb => ⟨?_, hentered.backend ▸ hb⟩
    cases ht' : s'.tailRecords[x]? with
    | none => exact ht'
    | some t' =>
        rcases hentered.cases ht' with ⟨heq, _⟩ | ⟨_, t, hold, _⟩
        · exact absurd (hx.trans heq.symm) (hother it hit)
        · rw [ht] at hold
          cases hold

/-- **A loop comes to its next record.** -/
theorem Inv.visited {updatedRecord : Name} {rest : List Name} (hvisit : l.visit = none)
    (hupdated : l.updatedRecords = updatedRecord :: rest) (h : Inv P ⟨s, l :: below, scan⟩)
    {t : TailingRecordState} (ht : s.tailRecords[updatedRecord]? = some t)
    (hs : Visited P updatedRecord t s s') {callback : Bool}
    (hcallback : callback = true → t.refSet.card = P.config.confirmWeight) :
    Inv P ⟨s', { l with
      updatedRecords := rest, visit := some ⟨updatedRecord, callback, true⟩
      referenceNeedUpdate := false } :: below, scan⟩ := by
  have hold : Records P s (⟨s, below, scan⟩ : Machine σ).current
      (updatedRecord :: (rest ++ (⟨s, below, scan⟩ : Machine σ).pending)) := by
    simpa [current, pending, hvisit, hupdated] using h.records
  have hlater : Later s s' := Later.of_subset fun x u hu => by rwa [← hs.tail x]
  have hrecords := hold.visited ht hs
  refine ⟨⟨hrecords, ?_, h.nested, ?_, ?_⟩, ?_⟩
  · intro l' hl'
    rcases List.mem_cons.1 hl' with rfl | hl'
    · refine ⟨(h.loops l List.mem_cons_self).writes, rfl, ?_, ?_⟩
      · intro v hv
        cases hv
        rfl
      · intro v hv hc
        cases hv
        exact ⟨t, (hs.tail updatedRecord).trans ht, (hcallback hc).ge⟩
    · exact h.loops_later hlater hrecords (List.mem_cons_of_mem l hl') fun v hv =>
        List.mem_cons_of_mem updatedRecord (mem_current.2 ⟨l', hl', v, hv, rfl⟩)
  · obtain ⟨hhead, htail⟩ := List.pairwise_cons.1 (h.kept_later hlater)
    exact List.pairwise_cons.2 ⟨hhead, htail⟩
  · intro q hq
    obtain ⟨hwrites, hstack⟩ := h.scan q hq
    exact ⟨hwrites, hs.syncStack.trans hstack⟩
  -- what is stored now was a tailing record, so it is none of those that wait
  · have hwaiting : ∀ l' : Loop, (⟨s', l' :: below, scan⟩ : Machine σ).waiting
        = (⟨s, l :: below, scan⟩ : Machine σ).waiting := by
      intro l'
      cases scan with
      | none => exact hs.syncStack
      | some q => rfl
    refine h.stack.mono (by rw [hwaiting]) fun it _ x _ hx hb => ⟨(hs.tail x).trans hx, ?_⟩
    have hne : updatedRecord ≠ x := by
      rintro rfl
      rw [ht] at hx
      cases hx
    rw [hs.backend x, if_neg fun hcx => hne hcx.2, hb]

/-! ## Out of a loop -/

/-- The references of the loops below stay valid, as the records that they are at stay. -/
theorem LoopsInv.outer (h : LoopsInv P ⟨s, l :: below, scan⟩) (hlater : Later s s')
    {pending' : List Name}
    (hrecords : Records P s' (⟨s, below, scan⟩ : Machine σ).current pending') :
    (∀ l' ∈ below, LoopInv P s' l') ∧ below.map (Loop.revalidate s'.tailRecords) = below := by
  have hcurrent : ∀ l' ∈ below, ∀ v, l'.visit = some v →
      v.updatedRecord ∈ (⟨s, below, scan⟩ : Machine σ).current :=
    fun l' hl' v hv => mem_current.2 ⟨l', hl', v, hv, rfl⟩
  refine ⟨fun l' hl' => ?_, ?_⟩
  · exact h.loops_later hlater hrecords (List.mem_cons_of_mem l hl') (hcurrent l' hl')
  · refine (List.map_congr_left fun l' hl' => ?_).trans (List.map_id below)
    refine (h.loops l' (List.mem_cons_of_mem l hl')).revalidate fun v hv => ?_
    obtain ⟨t, ht, _⟩ := hrecords.tailing _ (List.mem_append_left _ (hcurrent l' hl' v hv))
    exact ⟨t, ht⟩

/-- What waits goes on waiting when entries leave the tail. -/
theorem Inv.stack_of_subset (h : Inv P m) (hb : s'.backend = m.ledger.backend)
    (hsub : ∀ (x : Name) (t : TailingRecordState), s'.tailRecords[x]? = some t →
      m.ledger.tailRecords[x]? = some t) : StackInv P (s'.withStack m.waiting) := by
  refine h.stack.mono (List.Sublist.refl _) fun it _ x _ hx hstored => ⟨?_, hb ▸ hstored⟩
  cases ht : s'.tailRecords[x]? with
  | none => rfl
  | some t =>
      rw [hsub x t ht] at hx
      cases hx

/-- **The callback has returned**: the reference of the loop is valid, and if the record is removed,
no other loop refers to it. -/
theorem Inv.leaveVisit (hsmall : P.config.SmallWeights) {v : Visit} (hvisit : l.visit = some v)
    (h : Inv P ⟨s, l :: below, scan⟩) :
    ∃ m', Machine.leaveVisit P l below v ⟨s, l :: below, scan⟩ = .ok m' ∧ Inv P m' := by
  have hold : Records P s (v.updatedRecord :: (⟨s, below, scan⟩ : Machine σ).current)
      (l.updatedRecords ++ (⟨s, below, scan⟩ : Machine σ).pending) := by
    simpa [current, pending, hvisit] using h.records
  set s' := removeUpdated P v.updatedRecord (s.tailRecords.getD v.updatedRecord {}) s with hs'
  have hrest : s'.backend = s.backend ∧ s'.syncStack = s.syncStack ∧
      ∀ (x : Name) (t : TailingRecordState), s'.tailRecords[x]? = some t →
        s.tailRecords[x]? = some t := by
    rw [hs', removeUpdated]
    split_ifs
    · refine ⟨rfl, rfl, fun x t ht => ?_⟩
      rw [eraseTail, Std.TreeMap.getElem?_erase] at ht
      split_ifs at ht
      exact ht
    · exact ⟨rfl, rfl, fun _ _ ht => ht⟩
  obtain ⟨hb, hstack, hsub⟩ := hrest
  -- a removed record is referred to by no loop below, so all references there stay valid
  have hrecords := hold.removeUpdated hsmall
  obtain ⟨hloops, hbelow⟩ := h.outer (Later.of_subset hsub) hrecords
  have hl := h.loops l List.mem_cons_self
  refine ⟨⟨s', { l with visit := none } :: below, scan⟩, ?_, ⟨hrecords, ?_, h.nested, ?_, ?_⟩, ?_⟩
  · unfold Machine.leaveVisit
    rw [if_pos (hl.valid v hvisit)]
    simp only [← hs', hbelow]
  · intro l' hl'
    rcases List.mem_cons.1 hl' with rfl | hl'
    · refine ⟨hl.writes, hl.flag, ?_, ?_⟩ <;> intro v hv <;> cases hv
    · exact hloops l' hl'
  · obtain ⟨hhead, htail⟩ := List.pairwise_cons.1 (h.kept_later (Later.of_subset hsub))
    exact List.pairwise_cons.2 ⟨hhead, htail⟩
  · intro q hq
    obtain ⟨hwrites, hscan⟩ := h.scan q hq
    exact ⟨hwrites, hstack.trans hscan⟩
  · have hwaiting : (⟨s', { l with visit := none } :: below, scan⟩ : Machine σ).waiting
        = (⟨s, l :: below, scan⟩ : Machine σ).waiting := by
      cases scan with
      | none => exact hstack
      | some q => rfl
    rw [hwaiting]
    exact h.stack_of_subset hb hsub

/-- What is sent does not matter. -/
theorem LoopsInv.sends (h : LoopsInv P m) {events : List Event}
    (hs : OnlySends P m.ledger s' events) : LoopsInv P { m with ledger := s' } := by
  have hsame := hs.sameRecords
  obtain ⟨rfl, _⟩ := hs
  exact ⟨h.records.congr (fun _ => rfl) rfl hsame.confirmations,
    fun l hl => ⟨(h.loops l hl).writes, (h.loops l hl).flag, (h.loops l hl).valid,
      (h.loops l hl).heavy⟩, h.nested, h.kept, h.scan⟩

theorem Inv.sends (h : Inv P m) {events : List Event} (hs : OnlySends P m.ledger s' events) :
    Inv P { m with ledger := s' } := by
  refine ⟨h.toLoopsInv.sends hs, ?_⟩
  have hstack := h.stack
  obtain ⟨rfl, _⟩ := hs
  exact ⟨hstack.waiting, hstack.pointerName, hstack.type_ne, hstack.nodup⟩

/-- When the last loop has ended, what has been added is erased from the sync stack. -/
theorem LoopsInv.erased {loops : List Loop} (h : LoopsInv P ⟨s, loops, scan⟩)
    (hstack : StackInv P (s.withStack (⟨s, l :: loops, scan⟩ : Machine σ).waiting)) :
    Inv P (⟨s, loops, scan⟩ : Machine σ).erased := by
  cases loops with
  | cons l' below =>
      refine ⟨h, ?_⟩
      cases scan <;> exact hstack
  | nil =>
      cases scan with
      | none => exact ⟨h, hstack⟩
      | some q =>
          refine ⟨⟨h.records.congr (fun _ => rfl) rfl rfl, ?_, ?_, List.Pairwise.nil, ?_⟩, hstack⟩
          · intro l' hl'
            cases hl'
          · intro l' hl'
            cases hl'
          · intro q' hq'
            cases hq'
            exact ⟨(h.scan q rfl).1, rfl⟩

/-- **The end of a loop** evicts nothing that an outer loop refers to. -/
theorem Inv.pop (hvisit : l.visit = none) (hupdated : l.updatedRecords = [])
    (h : Inv P ⟨s, l :: below, scan⟩) :
    ∃ m', Machine.pop P l below ⟨s, l :: below, scan⟩ = .ok m' ∧ Inv P m' := by
  have hold : Records P s (⟨s, below, scan⟩ : Machine σ).current
      (⟨s, below, scan⟩ : Machine σ).pending := by
    simpa [current, pending, hvisit, hupdated] using h.records
  have hl := h.loops l List.mem_cons_self
  have hkept : ∀ x ∈ (⟨s, below, scan⟩ : Machine σ).current
      ++ (⟨s, below, scan⟩ : Machine σ).pending,
      ¬ Evicted s.tailRecords.lookup P.config l.amb x := by
    intro x hx
    -- an outer loop is inside of a callback, so its record is heavy; what is pending is kept
    rcases List.mem_append.1 hx with hx | hx
    · obtain ⟨l', hl', v, hv, rfl⟩ := mem_current.1 hx
      have hcallback := h.nested l' hl'
      rw [hv] at hcallback
      obtain ⟨t, ht, hc⟩ := (h.loops l' (List.mem_cons_of_mem l hl')).heavy v hv hcallback
      exact hold.not_evicted ht hc
    · obtain ⟨l', hl', hx⟩ := mem_pending.1 hx
      exact (List.pairwise_cons.1 h.kept).1 l' hl' x hx
  have hsub : ∀ (x : Name) (t : TailingRecordState),
      (removeTimeoutRecords P l.amb s).tailRecords[x]? = some t → s.tailRecords[x]? = some t :=
    fun x t ht => ((removeTimeoutRecords_getElem? P l.amb s x t).1 ht).1
  have hrecords := hold.removeTimeoutRecords hkept
  obtain ⟨hloops, hbelow⟩ := h.outer (Later.of_subset hsub) hrecords
  have hinv : LoopsInv P ⟨removeTimeoutRecords P l.amb s, below, scan⟩ :=
    ⟨hrecords, hloops, fun l' hl' => h.nested l' (List.mem_of_mem_tail hl'),
      (List.pairwise_cons.1 (h.kept_later (Later.of_subset hsub))).2, h.scan⟩
  have hwaiting : ∀ s₁ : LedgerImpl σ, s₁.syncStack = s.syncStack →
      (⟨s₁, l :: below, scan⟩ : Machine σ).waiting
        = (⟨s, l :: below, scan⟩ : Machine σ).waiting := by
    intro s₁ hs₁
    cases scan with
    | none => exact hs₁
    | some q => rfl
  have hstack : StackInv P ((removeTimeoutRecords P l.amb s).withStack
      (⟨s, l :: below, scan⟩ : Machine σ).waiting) := h.stack_of_subset rfl hsub
  -- the flag is not set, so `updateReferences` does nothing and the eviction is all
  have hrun : Machine.pop P l below ⟨s, l :: below, scan⟩ = .ok (⟨if l.creates then
      (sendSyncInterest l.amb (removeTimeoutRecords P l.amb s)).1
      else removeTimeoutRecords P l.amb s, below, scan⟩ : Machine σ).erased := by
    unfold Machine.pop leaveTailing
    simp only [hl.flag, updateReferences, Bool.false_eq_true, if_false, hbelow]
  refine ⟨_, hrun, ?_⟩
  by_cases hcreates : l.creates = true
  · rw [if_pos hcreates]
    obtain ⟨events, hs⟩ := sendSyncInterest_sends P l.amb (removeTimeoutRecords P l.amb s)
    refine (hinv.sends hs).erased (l := l) ?_
    dsimp only
    rw [hwaiting _ (by rw [hs.eq]; rfl), hs.eq]
    exact ⟨hstack.waiting, hstack.pointerName, hstack.type_ne, hstack.nodup⟩
  · rw [if_neg hcreates]
    refine hinv.erased (l := l) ?_
    rw [hwaiting (removeTimeoutRecords P l.amb s) rfl]
    exact hstack

end Machine

end DLedger
