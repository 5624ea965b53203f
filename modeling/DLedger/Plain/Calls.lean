import DLedger.Ledger.Run
import DLedger.Plain.Insert

set_option autoImplicit false

/-! # The calls of a ledger beside its plain variant

Every call that is made of a ledger and of its plain variant in step agrees: the same error
escapes both, or they return the same and are in step again.
-/

namespace DLedger

open Tlv (Bytes Block)

namespace LedgerImpl

variable {σ : Type} {P : Peer σ} {amb : Ambient} {s s' q q' : LedgerImpl σ}

/-! ## Sending and waiting -/

theorem Refines.emit (h : Refines P s q) (e : Event) : Refines P (s.emit e) (q.emit e) where
  toTailRefines := h.toTailRefines.emit e
  inv := h.inv.emit e
  plain := h.plain.emit e
  pointerless h0 := ⟨(h.pointerless h0).stack, (h.pointerless h0).counted,
    (h.pointerless h0).newest, (h.pointerless h0).evicted⟩

section Step

variable (hpos : 1 ≤ P.config.confirmWeight) (hsmall : P.config.SmallWeights)
  (hput : ∀ m, amb.putOk m = true)
include hpos hsmall

theorem Refines.fetchUnseen (h : Refines P s q) (names : List Name) :
    Refines P (fetchUnseen P names s).1 (fetchUnseen P.plain names q).1 ∧
      (LedgerImpl.fetchUnseen P.plain names q).2 = (LedgerImpl.fetchUnseen P names s).2 := by
  induction names generalizing s q with
  | nil => exact ⟨h, rfl⟩
  | cons n names ih =>
      rw [LedgerImpl.fetchUnseen, LedgerImpl.fetchUnseen, h.seenRecord hpos hsmall n]
      split_ifs
      · exact ih h
      · exact ⟨(ih (h.emit _)).1, rfl⟩

include hput

theorem Refines.drop (h : Refines P s q) {before rest : List (Record × Int)} {it : Record × Int}
    (hstack : s.syncStack = before ++ it :: rest)
    (hlate : P.config.ancestorFetchTimeout < |amb.now - it.2|) :
    Refines P (s.withStack (before ++ rest)) (q.withStack (before ++ rest)) where
  toTailRefines := h.toTailRefines.withStack _
  inv := by
    have hmove : ReceiveMove P amb (fun _ => True) s (s.withStack (before ++ rest)) :=
      ReceiveMove.drop hstack hlate
    exact h.inv.receiveMove hpos hsmall hput hmove
  plain := by
    have hmove : ReceiveMove P.plain amb (fun _ => True) q (q.withStack (before ++ rest)) :=
      ReceiveMove.drop (h.syncStack.trans hstack) hlate
    exact h.plain.receiveMove (P := P.plain) hpos hsmall hput hmove
  pointerless h0 := by
    have hj := h.pointerless h0
    refine ⟨fun it' hit => hj.stack it' ?_, hj.counted, hj.newest, hj.evicted⟩
    rw [hstack]
    rcases List.mem_append.1 hit with hit | hit
    · exact List.mem_append_left _ hit
    · exact List.mem_append_right _ (List.mem_cons_of_mem it hit)

/-- A received record joins both stacks. -/
theorem Refines.push (h : Refines P s q) {data : Data} {record : Record}
    (hdec : Record.ofData P.ndn data = .ok record) (htype : record.type ≠ .genesisRecord)
    (hunseen : s.seenRecord P (P.ndn.fullName data) = false)
    (hunstacked : ∀ it ∈ s.syncStack, it.1.getRecordName P.ndn ≠ P.ndn.fullName data)
    (hchecked : LedgerImpl.checkSyntaxValidityOfRecord P amb data s = .ok true) :
    Refines P (s.withStack (s.syncStack ++ [(record, amb.now)]))
      (q.withStack (q.syncStack ++ [(record, amb.now)])) where
  toTailRefines := by
    rw [h.syncStack]
    exact h.toTailRefines.withStack _
  inv := by
    have hmove : ReceiveMove P amb (fun _ => True) s _ :=
      ReceiveMove.push trivial hdec htype hunseen hunstacked hchecked
    exact h.inv.receiveMove hpos hsmall hput hmove
  plain := by
    have hmove : ReceiveMove P.plain amb (fun _ => True) q _ :=
      ReceiveMove.push trivial hdec htype ((h.seenRecord hpos hsmall _).trans hunseen)
        (h.syncStack ▸ hunstacked) ((h.checkSyntaxValidityOfRecord data).trans hchecked)
    exact h.plain.receiveMove (P := P.plain) hpos hsmall hput hmove
  pointerless h0 := by
    have hj := h.pointerless h0
    refine ⟨fun it hit => ?_, hj.counted, hj.newest, hj.evicted⟩
    rcases List.mem_append.1 hit with hit | hit
    · exact hj.stack it hit
    · rw [List.mem_singleton.1 hit]
      exact pointers_eq_nil_of_checked h0 hdec hchecked

/-! ## Insertions -/

/-- A record that is added to both leaves them in step, on what is left of the stack. -/
theorem Refines.inserted (h : Refines P s q) (hdeep : P.removesDeep = true) {record : Record}
    {endorseVerified : Bool} {n : Name} {marked marked' : Finset Name}
    {names names' : List Name} {mid mid' : TailMap}
    (hadd : Inserted P amb record endorseVerified n s s' marked names mid)
    (hplain : Inserted P.plain amb record endorseVerified n q q' marked' names' mid')
    {stack : List (Record × Int)} (hsub : stack.Sublist s.syncStack)
    (hother : ∀ it ∈ stack, it.1.getRecordName P.ndn ≠ n)
    (hpointers : P.config.precedingRecordNum = 0 → ∀ p ∈ record.recordPointers,
      endorseVerified = true ∧ RecordName.getProducerPrefix n = P.config.peerPrefix ∧
        RecordName.getProducerPrefix p ≠ P.config.peerPrefix) :
    Refines P (s'.withStack stack) (q'.withStack stack) where
  toTailRefines := (h.toTailRefines.inserted h.plain.tail hadd hplain hpos hsmall hdeep).withStack _
  inv := ⟨(hadd.tailInv hpos hsmall hput h.inv.tail).congr rfl rfl,
    hadd.stackInv hput h.inv.stack hsub hother⟩
  plain := ⟨(Inserted.tailInv (P := P.plain) hpos hsmall hput hplain h.plain.tail).congr rfl rfl,
    hplain.stackInv hput h.plain.stack (h.syncStack ▸ hsub) hother⟩
  pointerless h0 := (h.pointerless h0).inserted h.toTailRefines h.plain.tail hadd hplain hpos
    hsmall hdeep (hpointers h0) fun it hit => (h.pointerless h0).stack it (hsub.subset hit)

/-- A record that did not wait leaves them in step. -/
theorem Refines.inserted_new (h : Refines P s q) (hdeep : P.removesDeep = true) {record : Record}
    {endorseVerified : Bool} {n : Name} {marked marked' : Finset Name}
    {names names' : List Name} {mid mid' : TailMap}
    (hadd : Inserted P amb record endorseVerified n s s' marked names mid)
    (hplain : Inserted P.plain amb record endorseVerified n q q' marked' names' mid')
    (hunstacked : ∀ it ∈ s.syncStack, it.1.getRecordName P.ndn ≠ n)
    (hpointers : P.config.precedingRecordNum = 0 → ∀ p ∈ record.recordPointers,
      endorseVerified = true ∧ RecordName.getProducerPrefix n = P.config.peerPrefix ∧
        RecordName.getProducerPrefix p ≠ P.config.peerPrefix) : Refines P s' q' := by
  have hrel := h.inserted hpos hsmall hput hdeep hadd hplain (List.Sublist.refl _) hunstacked
    hpointers
  have hs : s'.withStack s.syncStack = s' := by
    rw [← hadd.syncStack, withStack_self]
  have hq : q'.withStack s.syncStack = q' := by
    rw [← h.syncStack, ← hplain.syncStack, withStack_self]
  rwa [hs, hq] at hrel

omit hput

/-- What can be added to the ledger can be added to its variant. -/
theorem Refines.addReady (h : Refines P s q) {record : Record} {endorseVerified : Bool}
    {n : Name} (hr : AddReady P s record endorseVerified n)
    (hstored : s.backend.getRecord P.ndn n = none) :
    AddReady P.plain q record endorseVerified n where
  named := hr.named
  name := hr.name
  fresh := by
    rcases h.read hpos hsmall n with ⟨hsame, _⟩ | ⟨t, d, _, _, _, _, hd, _⟩
    · exact hsame.trans hr.fresh
    · rw [hstored] at hd
      cases hd
  verified p hp t ht := by
    rcases h.read hpos hsmall p with ⟨hsame, _⟩ | ⟨u, _, _, hu, _, hv, _⟩
    · exact hr.verified p hp t (hsame ▸ ht)
    · rw [hu] at ht
      cases ht
      exact hv
  pointerName := hr.pointerName
  unpointed := by
    refine h.plain.tail.tailHeld.unpointed ?_ (by rw [h.backend]; exact hstored)
    rcases h.read hpos hsmall n with ⟨hsame, _⟩ | ⟨t, d, _, _, _, _, hd, _⟩
    · exact hsame.trans hr.fresh
    · rw [hstored] at hd
      cases hd

variable (amb) in
/-- **A record that is added to both is inserted into both, or the same error escapes.** -/
theorem Refines.addToTailingRecord (h : Refines P s q) {record : Record}
    (endorseVerified : Bool) {d : Data} (hd : record.data = some d)
    (hfresh : s.tailRecords[P.ndn.fullName d]? = none)
    (hstored : s.backend.getRecord P.ndn (P.ndn.fullName d) = none)
    (hready : (endorseVerified = true → RecordName.check (P.ndn.fullName d) = .ok ()) →
      AddReady P s record endorseVerified (P.ndn.fullName d))
    (htype : record.type = .genesisRecord → record.recordPointers = [])
    (hheld : ∀ p ∈ record.recordPointers, (∃ u, s.tailRecords[p]? = some u) ∨
      ∃ d', s.backend.getRecord P.ndn p = some d') :
    Outcome.Agree (fun s' q' => ∃ marked marked' names names' mid mid',
        Inserted P amb record endorseVerified (P.ndn.fullName d) s s' marked names mid ∧
        Inserted P.plain amb record endorseVerified (P.ndn.fullName d) q q' marked' names' mid')
      (addToTailingRecord P amb record endorseVerified s)
      (addToTailingRecord P.plain amb record endorseVerified q) := by
  have hready' := fun hname => h.addReady hpos hsmall (hready hname) hstored
  have hfresh' : q.tailRecords[P.ndn.fullName d]? = none := by
    rcases h.read hpos hsmall (P.ndn.fullName d) with ⟨hsame, _⟩ | ⟨t, d', _, _, _, _, hd', _⟩
    · exact hsame.trans hfresh
    · rw [hstored] at hd'
      cases hd'
  have hheld' : ∀ p ∈ record.recordPointers, (∃ u, q.tailRecords[p]? = some u) ∨
      ∃ d', q.backend.getRecord P.ndn p = some d' := by
    intro p hp
    rw [h.backend]
    exact (hheld p hp).imp_left fun ⟨u, hu⟩ => ⟨u, ((h.tail_iff p u).1 hu).1⟩
  -- whether the call throws is decided by the name alone, which is the same in both
  have hresult := addToTailingRecord_result amb h.inv.tail endorseVerified hd hfresh hready
  have hresult' := addToTailingRecord_result (P := P.plain) amb h.plain.tail endorseVerified hd
    hfresh' hready'
  rw [← hresult] at hresult'
  rcases hrun : LedgerImpl.addToTailingRecord P amb record endorseVerified s with
    ⟨s₁, f | ⟨⟨⟩⟩⟩ <;>
  rcases hrun' : LedgerImpl.addToTailingRecord P.plain amb record endorseVerified q with
    ⟨q₁, f' | ⟨⟨⟩⟩⟩ <;> rw [hrun, hrun'] at hresult'
  · cases hresult'
    exact Outcome.Agree.error
  · cases hresult'
  · cases hresult'
  · obtain ⟨hr, hgen, marked, names, mid, hadded⟩ :=
      added_of_ok h.inv.tail.sound hd hfresh hready htype hrun
    obtain ⟨hr', hgen', marked', names', mid', hadded'⟩ := added_of_ok (P := P.plain)
      h.plain.tail.sound hd hfresh' hready' htype hrun'
    exact Outcome.Agree.ok ⟨marked, marked', names, names', mid, mid',
      ⟨hadded, hr, hstored, hheld, hgen⟩,
      ⟨hadded', hr', by rw [h.backend]; exact hstored, hheld', hgen'⟩⟩

end Step

/-! ## The sync stack -/

section Stack

variable (hpos : 1 ≤ P.config.confirmWeight) (hsmall : P.config.SmallWeights)
  (hput : ∀ m, amb.putOk m = true) (hdeep : P.removesDeep = true)
include hpos hsmall hput hdeep

/-- An entry of the stack is added to both. -/
theorem Refines.resolve (h : Refines P s q) {before rest : List (Record × Int)}
    {it : Record × Int} (hstack : s.syncStack = before ++ it :: rest)
    (hready : LedgerImpl.readyToAdd P it.1 s = .ok true) (endorseVerified : Bool) :
    Outcome.Agree
      (fun s' q' => Refines P (s'.withStack (before ++ rest)) (q'.withStack (before ++ rest)))
      (LedgerImpl.addToTailingRecord P amb it.1 endorseVerified s)
      (LedgerImpl.addToTailingRecord P.plain amb it.1 endorseVerified q) := by
  have hit : it ∈ s.syncStack := by rw [hstack]; simp
  obtain ⟨n, hn, hfresh, hstored⟩ := h.inv.stack.waiting it hit
  obtain ⟨d, hd, rfl⟩ := hn.exists_data
  have hagree := h.addToTailingRecord amb hpos hsmall endorseVerified hd hfresh hstored
    (fun hname => (h.inv.ledgerHeld.ready_stack hit hready hn hname).1)
    (fun htype => absurd htype (h.inv.stack.type_ne it hit))
    (fun p hp => (hasRecord_held (readyToAdd_pointers hready p hp)).1)
  rcases hagree.cases with ⟨s', q', f, hs, hq⟩ | ⟨s', q', ⟨⟩, hs, hq, hins⟩
  · rw [hs, hq]
    exact Outcome.Agree.error
  · obtain ⟨marked, marked', names, names', mid, mid', hadd, hplain⟩ := hins
    rw [hs, hq]
    refine Outcome.Agree.ok (h.inserted hpos hsmall hput hdeep hadd hplain ?_ ?_ fun h0 p hp => ?_)
    · rw [hstack]
      exact (List.Sublist.refl before).append (List.sublist_cons_self it rest)
    · have hnodup := h.inv.stack.nodup
      rw [hstack, List.map_append, List.map_cons, List.nodup_middle, List.nodup_cons,
        hn.getRecordName, ← List.map_append] at hnodup
      exact fun it' hit' heq => hnodup.1 (List.mem_map.2 ⟨it', hit', heq⟩)
    · rw [(h.pointerless h0).stack it hit] at hp
      exact absurd hp List.not_mem_nil

/-- The three ways in which an entry of the stack is checked. -/
theorem Refines.checkRecordAncestor (h : Refines P s q) {before rest : List (Record × Int)}
    {it : Record × Int} (hstack : s.syncStack = before ++ it :: rest) :
    (∃ s' q' f, LedgerImpl.checkRecordAncestor P amb it.1 s = (s', .error f) ∧
      LedgerImpl.checkRecordAncestor P.plain amb it.1 q = (q', .error f)) ∨
    (LedgerImpl.checkRecordAncestor P amb it.1 s = (s, .ok false) ∧
      LedgerImpl.checkRecordAncestor P.plain amb it.1 q = (q, .ok false)) ∨
    ∃ s' q', LedgerImpl.checkRecordAncestor P amb it.1 s = (s', .ok true) ∧
      LedgerImpl.checkRecordAncestor P.plain amb it.1 q = (q', .ok true) ∧
      Refines P (s'.withStack (before ++ rest)) (q'.withStack (before ++ rest)) := by
  unfold LedgerImpl.checkRecordAncestor
  rw [h.readyToAdd hpos hsmall]
  rcases hready : LedgerImpl.readyToAdd P it.1 s with f | _ | _
  · exact Or.inl ⟨s, q, f, rfl, rfl⟩
  · exact Or.inr (Or.inl ⟨rfl, rfl⟩)
  · cases hdata : it.1.data with
    | none => exact Or.inl ⟨s, q, .nullDereference, rfl, rfl⟩
    | some data =>
        simp only [h.checkEndorseValidityOfRecord hpos hsmall]
        cases hend : LedgerImpl.checkEndorseValidityOfRecord P amb data s with
        | error f => exact Or.inl ⟨s, q, f, rfl, rfl⟩
        | ok endorseVerified =>
            rcases (h.resolve hpos hsmall hput hdeep hstack hready endorseVerified).cases with
              ⟨s', q', f, hs, hq⟩ | ⟨s', q', ⟨⟩, hs, hq, hrel⟩
            · exact Or.inl ⟨s', q', f, by simp only [hs], by simp only [hq]⟩
            · exact Or.inr (Or.inr ⟨s', q', by simp only [hs], by simp only [hq], hrel⟩)

theorem Refines.scanStack (h : Refines P s q) (before rest : List (Record × Int))
    (hstack : s.syncStack = before ++ rest) :
    Outcome.Agree (Refines P) (scanStack P amb before rest s)
      (scanStack P.plain amb before rest q) := by
  induction rest generalizing before s q with
  | nil => exact Outcome.Agree.ok h
  | cons it rest ih =>
      rw [LedgerImpl.scanStack, LedgerImpl.scanStack]
      rcases h.checkRecordAncestor hpos hsmall hput hdeep hstack with
        ⟨s', q', f, hs, hq⟩ | ⟨hs, hq⟩ | ⟨s', q', hs, hq, hrel⟩
      · rw [hs, hq]
        exact Outcome.Agree.error
      · rw [hs, hq]
        dsimp only
        split_ifs with hlate
        · exact ih (h.drop hpos hsmall hput hstack hlate) before rfl
        · exact ih h (before ++ [it]) (by rw [hstack]; simp)
      · rw [hs, hq]
        exact ih hrel before rfl

theorem Refines.rescanStack (h : Refines P s q) (fuel : Nat) (stackSize : Option Nat) :
    Outcome.Agree (Refines P) (rescanStack P amb fuel stackSize s)
      (rescanStack P.plain amb fuel stackSize q) := by
  induction fuel generalizing stackSize s q with
  | zero => exact Outcome.Agree.ok h
  | succ fuel ih =>
      rw [LedgerImpl.rescanStack, LedgerImpl.rescanStack, h.syncStack]
      split_ifs
      · exact Outcome.Agree.ok h
      · rcases (h.scanStack hpos hsmall hput hdeep [] s.syncStack rfl).cases with
          ⟨s', q', f, hs, hq⟩ | ⟨s', q', ⟨⟩, hs, hq, hrel⟩
        · rw [hs, hq]
          exact Outcome.Agree.error
        · rw [hs, hq]
          exact ih hrel _

/-! ## Received records -/

omit hdeep in
theorem Refines.receiveRecord (h : Refines P s q) {data : Data}
    (hunseen : s.seenRecord P (P.ndn.fullName data) = false)
    (hunstacked : ∀ it ∈ s.syncStack, it.1.getRecordName P.ndn ≠ P.ndn.fullName data) :
    Outcome.Agree (Refines P) (receiveRecord P amb data s) (receiveRecord P.plain amb data q) := by
  unfold LedgerImpl.receiveRecord
  cases hdec : Record.ofData P.ndn data with
  | error e => exact Outcome.Agree.ok h
  | ok record =>
      simp only [h.checkSyntaxValidityOfRecord]
      split_ifs with hgenesis hcert
      · exact Outcome.Agree.ok h
      all_goals
        rcases hcheck : LedgerImpl.checkSyntaxValidityOfRecord P amb data s with (e | _) | _ | _
        · exact Outcome.Agree.ok h
        · exact Outcome.Agree.error
        · exact Outcome.Agree.ok h
      all_goals
        have hpush := h.push hpos hsmall hput hdec hgenesis hunseen hunstacked hcheck
        obtain ⟨hfetch, hall⟩ := hpush.fetchUnseen hpos hsmall record.recordPointers
        dsimp only [withStack] at hfetch hall
      · cases CertificateRecord.ofRecord P.ndn record with
        | error e => exact Outcome.Agree.ok hfetch
        | ok certRecord =>
            obtain ⟨hfetch', hall'⟩ :=
              hfetch.fetchUnseen hpos hsmall (certRecord.prevCert.filter (· ≠ []))
            simp only [hall, hall']
            exact Outcome.Agree.ok hfetch'
      · simp only [hall]
        exact Outcome.Agree.ok hfetch

theorem Refines.onFetchedRecord (h : Refines P s q) (data : Data) :
    Outcome.Agree (Refines P) (onFetchedRecord P amb data s)
      (onFetchedRecord P.plain amb data q) := by
  unfold LedgerImpl.onFetchedRecord
  simp only [h.seenRecord hpos hsmall, h.syncStack]
  split_ifs with hseen hstack
  · exact Outcome.Agree.ok h
  · exact Outcome.Agree.ok h
  · rcases (h.receiveRecord hpos hsmall hput (Bool.not_eq_true _ ▸ hseen)
      (unstacked_of_any hstack)).cases with
      ⟨s', q', f, hs, hq⟩ | ⟨s', q', ready, hs, hq, hrel⟩
    · rw [hs, hq]
      exact Outcome.Agree.error
    · rw [hs, hq]
      cases ready with
      | false => exact Outcome.Agree.ok hrel
      | true =>
          have hagree := hrel.rescanStack hpos hsmall hput hdeep (s'.syncStack.length + 2) none
          simp only [hrel.syncStack]
          exact hagree

end Stack

/-! ## Incoming Interests -/

section Interests

variable (hpos : 1 ≤ P.config.confirmWeight) (hsmall : P.config.SmallWeights)
include hpos hsmall

/-- A deep record has a weight, so it is not one that a sync Interest would name. -/
theorem Refines.weightless (h : Refines P s q) (n : Name) :
    (q.tailRecords[n]?).any (fun state => state.refSet.card == 0)
      = (s.tailRecords[n]?).any (fun state => state.refSet.card == 0) := by
  rcases h.read hpos hsmall n with ⟨hsame, _⟩ | ⟨t, d, hs, hq, hdeep, _⟩
  · rw [hsame]
  · have hle := hsmall.confirmWeight_le
    have hne : t.refSet.card ≠ 0 := by omega
    rw [hs, hq, Option.any_none, Option.any_some, beq_eq_false_iff_ne]
    exact hne

theorem Refines.onSyncCertificate (h : Refines P s q) (item : Block) (flags : SyncFlags) :
    Refines P (onSyncCertificate P item (s, flags)).1
        (onSyncCertificate P.plain item (q, flags)).1 ∧
      (LedgerImpl.onSyncCertificate P.plain item (q, flags)).2
        = (LedgerImpl.onSyncCertificate P item (s, flags)).2 := by
  unfold LedgerImpl.onSyncCertificate
  cases KeyLocator.getName item with
  | none => exact ⟨h, rfl⟩
  | some name =>
      dsimp only
      cases RecordName.ofName name with
      | error e => exact ⟨h, rfl⟩
      | ok certName =>
          simp only [h.seenRecord hpos hsmall]
          split_ifs
          · exact ⟨h.emit _, rfl⟩
          · exact ⟨h, rfl⟩

/-- One element of a sync Interest, with the flags that both loops carry. -/
theorem Refines.onSyncItem (h : Refines P s q) (item : Block) (flags : SyncFlags) :
    Outcome.Agree (fun st st' : LedgerImpl σ × SyncFlags => Refines P st.1 st'.1 ∧ st'.2 = st.2)
      (onSyncItem P item (s, flags)) (onSyncItem P.plain item (q, flags)) := by
  unfold LedgerImpl.onSyncItem
  split_ifs
  · exact Outcome.Agree.ok (h.onSyncCertificate hpos hsmall item flags)
  · exact Outcome.Agree.ok ⟨h, rfl⟩
  · cases Name.wireDecode item with
    | none => exact Outcome.Agree.error
    | some recordName =>
        simp only [h.weightless hpos hsmall, h.seenRecord hpos hsmall]
        split_ifs
        · exact Outcome.Agree.ok ⟨h, rfl⟩
        · exact Outcome.Agree.ok ⟨h, rfl⟩
        · exact Outcome.Agree.ok ⟨h.emit _, rfl⟩

theorem Refines.onLedgerSyncRequest (h : Refines P s q) (interest : Interest) :
    Outcome.Agree (Refines P) (onLedgerSyncRequest P interest s)
      (onLedgerSyncRequest P.plain interest q) := by
  unfold LedgerImpl.onLedgerSyncRequest
  rw [h.certManager]
  rcases P.certManager.verifyInterest s.certManager interest with e | _ | _
  · exact Outcome.Agree.error
  · exact Outcome.Agree.ok h
  · cases Tlv.parse interest.applicationParameters with
    | none => exact Outcome.Agree.error
    | some elements =>
        have hloop : Outcome.Agree
            (fun st st' : LedgerImpl σ × SyncFlags => Refines P st.1 st'.1 ∧ st'.2 = st.2)
            (Outcome.forEach (LedgerImpl.onSyncItem P) elements (s.emit .replyCancelled, {}))
            (Outcome.forEach (LedgerImpl.onSyncItem P.plain) elements
              (q.emit .replyCancelled, {})) := by
          refine Outcome.forEach_agree (fun item _ st st' hst => ?_) ⟨h.emit _, rfl⟩
          obtain ⟨a, flags⟩ := st
          obtain ⟨b, flags'⟩ := st'
          obtain ⟨hab, rfl⟩ := hst
          exact hab.onSyncItem hpos hsmall item _
        rcases hloop.cases with ⟨st, st', f, hs, hq⟩ | ⟨st, st', ⟨⟩, hs, hq, hrel, hflags⟩
        · simp only [hs, hq]
          exact Outcome.Agree.error
        · simp only [hs, hq, hflags]
          split_ifs
          · exact Outcome.Agree.ok (hrel.emit _)
          · exact Outcome.Agree.ok hrel

theorem Refines.onRecordRequest (h : Refines P s q) (interest : Interest) :
    Outcome.Agree (Refines P) (onRecordRequest P interest s)
      (onRecordRequest P.plain interest q) := by
  unfold LedgerImpl.onRecordRequest
  rw [h.getRecord hpos hsmall]
  rcases s.getRecord P interest.name with e | _ | record
  · exact Outcome.Agree.error
  · exact Outcome.Agree.ok h
  · cases hdata : record.data with
    | none => simp only [hdata]; exact Outcome.Agree.error
    | some data => simp only [hdata]; exact Outcome.Agree.ok (h.emit _)

variable (amb) in
theorem Refines.sendSyncInterest (h : Refines P s q) :
    Refines P (sendSyncInterest amb s).1 (sendSyncInterest amb q).1 ∧
      (LedgerImpl.sendSyncInterest amb q).2 = (LedgerImpl.sendSyncInterest amb s).2 := by
  unfold LedgerImpl.sendSyncInterest
  rw [h.frontier hpos hsmall, h.lastCertRecords]
  cases amb.signInterest with
  | error reason => exact ⟨h, rfl⟩
  | ok u => exact ⟨h.emit _, rfl⟩

end Interests

/-! ## Created records -/

/-- No exception escapes before the pointers are added, when the record has no packet. -/
theorem addLastCertRecords_of_fresh (certNames : List Name) (record : Record)
    (hdata : record.data = none) :
    ∃ record', addLastCertRecords certNames record = .ok record' := by
  induction certNames generalizing record with
  | nil => exact ⟨record, rfl⟩
  | cons n certNames ih =>
      obtain ⟨record', hrecord'⟩ := ih
        { record with contentItems := record.contentItems ++ [KeyLocator.wireEncode n] } hdata
      refine ⟨record', ?_⟩
      simpa only [addLastCertRecords, bind, Except.bind, Record.addRecordItem, hdata,
        Option.isSome_none, Bool.false_eq_true, if_false] using hrecord'

/-- The two tails are empty together, or only that of the variant has entries. -/
theorem TailRefines.isEmpty_cases (h : TailRefines P s q) :
    q.tailRecords.isEmpty = s.tailRecords.isEmpty ∨
      s.tailRecords.isEmpty = true ∧ q.tailRecords.isEmpty = false := by
  cases hs : s.tailRecords.isEmpty with
  | true => cases q.tailRecords.isEmpty <;> simp
  | false =>
      obtain ⟨n, hn⟩ := Std.TreeMap.isEmpty_eq_false_iff_exists_mem.1 hs
      rw [Std.TreeMap.mem_iff_isSome_getElem?, Option.isSome_iff_exists] at hn
      obtain ⟨t, ht⟩ := hn
      refine Or.inl (Std.TreeMap.isEmpty_eq_false_iff_exists_mem.2 ⟨n, ?_⟩)
      rw [Std.TreeMap.mem_iff_isSome_getElem?, ((h.tail_iff n t).1 ht).1]
      rfl

section Create

variable (hpos : 1 ≤ P.config.confirmWeight) (hsmall : P.config.SmallWeights)
  (hweights : P.config.appendWeight ≤ P.config.contributionWeight)
include hpos hsmall hweights

omit hpos in
/-- Up to the signature both do the same, unless the tail of the ledger is empty and that of
the variant is not. -/
theorem Refines.buildRecord (h : Refines P s q) (record : Record)
    (hempty : q.tailRecords.isEmpty = s.tailRecords.isEmpty) :
    LedgerImpl.buildRecord P.plain amb record q = LedgerImpl.buildRecord P amb record s := by
  unfold LedgerImpl.buildRecord
  simp only [hempty, h.certManager, h.lastCertRecords, h.recordList hsmall hweights]

omit hpos in
variable (amb) in
/-- When only the variant has tailing records, it has no candidates for a new record. -/
theorem Refines.buildRecord_of_empty (h : Refines P s q) {record : Record}
    (hdata : record.data = none) (hs : s.tailRecords.isEmpty = true)
    (hq : q.tailRecords.isEmpty = false) :
    (LedgerImpl.buildRecord P amb record s).2 = .ok (.error .noTailingRecord) ∧
      ∃ code, (LedgerImpl.buildRecord P.plain amb record q).2 = .ok (.error code) ∧
        code.success = false := by
  have hnone : ∀ n : Name, s.tailRecords[n]? = none := fun n =>
    Std.TreeMap.getElem?_of_isEmpty hs
  have hlist : LedgerImpl.recordList P.plain q = [] := by
    rw [h.recordList hsmall hweights, LedgerImpl.recordList, List.map_eq_nil_iff,
      List.filter_eq_nil_iff]
    intro entry hentry
    rw [Std.TreeMap.mem_toList_iff_getElem?_eq_some, hnone] at hentry
    cases hentry
  -- records without pointers would have left neither tail empty alone
  have hnum : 0 < P.config.precedingRecordNum := by
    rw [Nat.pos_iff_ne_zero]
    intro h0
    have hempty := (h.pointerless h0).tail_eq_none h.toTailRefines hnone
    obtain ⟨n, hn⟩ := Std.TreeMap.isEmpty_eq_false_iff_exists_mem.1 hq
    rw [Std.TreeMap.mem_iff_isSome_getElem?, hempty n] at hn
    cases hn
  refine ⟨by rw [LedgerImpl.buildRecord, if_pos hs], ?_⟩
  unfold LedgerImpl.buildRecord
  rw [if_neg (by rw [hq]; simp)]
  split_ifs with hauth hcert
  · exact ⟨_, rfl, rfl⟩
  · obtain ⟨record', hrecord'⟩ := addLastCertRecords_of_fresh q.lastCertRecords record hdata
    simp only [hrecord', hlist, List.length_nil, hnum, if_true]
    exact ⟨_, rfl, rfl⟩
  · simp only [hlist, List.length_nil, hnum, if_true]
    exact ⟨_, rfl, rfl⟩

end Create

/-- The call of `createRecord` by what it builds. -/
theorem call_createRecord (record : Record) (s : LedgerImpl σ) :
    call P (.createRecord amb record) s
      = match LedgerImpl.buildRecord P amb record s with
        | (_, .error f) => (s, .error f)
        | (_, .ok (.error _)) => (s, .ok ())
        | (record', .ok (.ok data)) =>
            match LedgerImpl.addToTailingRecord P amb { record' with data := some data } true s with
            | (s, .error f) => (s, .error f)
            | (s, .ok ()) => ((LedgerImpl.sendSyncInterest amb s).1, .ok ()) := by
  simp only [call, LedgerImpl.createRecord]
  rcases LedgerImpl.buildRecord P amb record s with ⟨record', f | code | data⟩
  · rfl
  · rfl
  · dsimp only
    rcases LedgerImpl.addToTailingRecord P amb { record' with data := some data } true s with
      ⟨s', f | ⟨⟨⟩⟩⟩
    · rfl
    · dsimp only
      rcases LedgerImpl.sendSyncInterest amb s' with ⟨s'', _ | _ | _ | _⟩ <;> rfl

section Call

variable (hpos : 1 ≤ P.config.confirmWeight) (hsmall : P.config.SmallWeights)
  (hweights : P.config.appendWeight ≤ P.config.contributionWeight)
  (hdeep : P.removesDeep = true)
include hpos hsmall hdeep

/-- A new record is added to both. -/
theorem Refines.create (h : Refines P s q) (hput : ∀ m, amb.putOk m = true) {record : Record}
    {data : Data} (hbuilt : Built P s record data)
    (hnew : s.tailRecords[P.ndn.fullName data]? = none → Unknown P s (P.ndn.fullName data)) :
    Outcome.Agree (Refines P) (LedgerImpl.addToTailingRecord P amb record true s)
      (LedgerImpl.addToTailingRecord P.plain amb record true q) := by
  cases hfresh : s.tailRecords[P.ndn.fullName data]? with
  | some t =>
      have hq := ((h.tail_iff _ t).1 hfresh).1
      rw [addToTailingRecord_of_tail hbuilt.data_eq hfresh,
        addToTailingRecord_of_tail (P := P.plain) hbuilt.data_eq hq]
      exact Outcome.Agree.ok h
  | none =>
      obtain ⟨hstored, hunstacked⟩ := hnew hfresh
      have hagree := h.addToTailingRecord amb hpos hsmall true hbuilt.data_eq hfresh hstored
        (fun hcheck => h.inv.ledgerHeld.ready_built hbuilt hfresh hstored (hcheck rfl))
        (fun htype => absurd htype hbuilt.type_ne)
        (fun p hp => by
          obtain ⟨u, hu, _⟩ := hbuilt.pointer p hp
          exact Or.inl ⟨u, hu⟩)
      rcases hagree.cases with ⟨s', q', f, hs, hq⟩ | ⟨s', q', ⟨⟩, hs, hq, hins⟩
      · rw [hs, hq]
        exact Outcome.Agree.error
      · obtain ⟨marked, marked', names, names', mid, mid', hadd, hplain⟩ := hins
        -- a candidate has another producer than the peer
        have hother : ∀ p ∈ record.recordPointers,
            RecordName.getProducerPrefix p ≠ P.config.peerPrefix := by
          intro p hp hprod
          obtain ⟨_, _, _, _, hpre⟩ := hbuilt.pointer p hp
          rw [← hprod, RecordName.getProducerPrefix, Name.getPrefix_isPrefixOf] at hpre
          cases hpre
        rw [hs, hq]
        exact Outcome.Agree.ok (h.inserted_new hpos hsmall hput hdeep hadd hplain hunstacked
          fun _ p hp => ⟨rfl, hbuilt.producer, hother p hp⟩)

include hweights

theorem Refines.createRecord (h : Refines P s q) {record : Record}
    (hadm : Admissible P s (.createRecord amb record)) :
    Outcome.Agree (Refines P) (call P (.createRecord amb record) s)
      (call P.plain (.createRecord amb record) q) := by
  obtain ⟨hput, hfresh, hnew⟩ := hadm
  rw [call_createRecord, call_createRecord]
  rcases h.isEmpty_cases with hempty | ⟨hs, hq⟩
  · rw [h.buildRecord hsmall hweights record hempty]
    rcases hbuild : LedgerImpl.buildRecord P amb record s with ⟨record', f | code | data⟩
    · exact Outcome.Agree.error
    · exact Outcome.Agree.ok h
    · have hagree := h.create hpos hsmall hdeep hput (buildRecord_built hfresh hbuild)
        (hnew _ _ hbuild)
      rcases hagree.cases with ⟨s', q', f, hrun, hrun'⟩ | ⟨s', q', ⟨⟩, hrun, hrun', hrel⟩
      · simp only [hrun, hrun']
        exact Outcome.Agree.error
      · simp only [hrun, hrun']
        exact Outcome.Agree.ok (hrel.sendSyncInterest amb hpos hsmall).1
  · obtain ⟨hbuild, code, hbuild', _⟩ := h.buildRecord_of_empty amb hsmall hweights
      hfresh.data_eq hs hq
    rcases hrun : LedgerImpl.buildRecord P amb record s with ⟨record₁, result⟩
    rcases hrun' : LedgerImpl.buildRecord P.plain amb record q with ⟨record₂, result'⟩
    rw [hrun] at hbuild
    rw [hrun'] at hbuild'
    dsimp only at hbuild hbuild'
    rw [hbuild, hbuild']
    exact Outcome.Agree.ok h

/-- **Every call agrees.** -/
theorem Refines.call (h : Refines P s q) {c : Call} (hadm : Admissible P s c) :
    Outcome.Agree (Refines P) (call P c s) (call P.plain c q) := by
  cases c with
  | createRecord amb record => exact h.createRecord hpos hsmall hweights hdeep hadm
  | onFetchedRecord amb data => exact h.onFetchedRecord hpos hsmall hadm hdeep data
  | onLedgerSyncRequest amb interest => exact h.onLedgerSyncRequest hpos hsmall interest
  | onRecordRequest amb interest => exact h.onRecordRequest hpos hsmall interest
  | sendSyncInterest amb => exact Outcome.Agree.ok (h.sendSyncInterest amb hpos hsmall).1

end Call

end LedgerImpl

end DLedger
