import DLedger.Ledger.Run

set_option autoImplicit false

/-! # What every call keeps

Some properties of a ledger depend neither on the tail nor on the sync stack, and change only
where a record is inserted or confirmed. Such a property, together with what holds of the
tailing and of the waiting records, is kept by every call. Nothing is assumed here of the
configuration, the database, the writes to it or the exceptions that escape: `Keeps` holds after
a call however it ends.
-/

namespace DLedger

open Tlv (Bytes Block)

namespace LedgerImpl

variable {σ : Type} {P : Peer σ} {amb : Ambient} {I : LedgerImpl σ → Prop}
  {W Q : Record → Prop} {s s' : LedgerImpl σ}

/-- A property of a ledger that depends neither on the tail nor on the sync stack and that
confirmations keep, of records of the tail (`Q`) and of the sync stack (`W`). -/
structure Frame (P : Peer σ) (I : LedgerImpl σ → Prop) (W Q : Record → Prop) : Prop where
  withTail : ∀ s tail, I s → I (s.withTail tail)
  withStack : ∀ s stack, I s → I (s.withStack stack)
  confirm : ∀ amb record s, Q record → I s → I (onRecordConfirmed P amb record s).1
  /-- The entry that `m_tailRecords[updatedRecord]` makes has a record without a packet. -/
  blank : Q {}
  waiting : ∀ record, W record → Q record

/-- Insertions keep it as well. -/
structure ScanFrame (P : Peer σ) (I : LedgerImpl σ → Prop) (W Q : Record → Prop) : Prop
    extends Frame P I W Q where
  insert : ∀ s record endorseVerified, Q record → I s →
    I (s.emit (.inserted record endorseVerified))

/-- So does what is sent. -/
structure CallFrame (P : Peer σ) (I : LedgerImpl σ → Prop) (W Q : Record → Prop) : Prop
    extends ScanFrame P I W Q where
  quiet : ∀ s (e : Event), e.IsQuiet → I s → I (s.emit e)

structure Keeps (I : LedgerImpl σ → Prop) (W Q : Record → Prop) (s : LedgerImpl σ) : Prop where
  holds : I s
  tail : ∀ (n : Name) (t : TailingRecordState), s.tailRecords[n]? = some t → Q t.record
  stack : ∀ it ∈ s.syncStack, W it.1

namespace Keeps

/-! ## Elementary changes -/

theorem emit (F : CallFrame P I W Q) (h : Keeps I W Q s) {e : Event} (he : e.IsQuiet) :
    Keeps I W Q (s.emit e) :=
  ⟨F.quiet s e he h.holds, h.tail, h.stack⟩

theorem withStack (F : Frame P I W Q) (h : Keeps I W Q s) {stack : List (Record × Int)}
    (hstack : ∀ it ∈ stack, W it.1) : Keeps I W Q (s.withStack stack) :=
  ⟨F.withStack s stack h.holds, h.tail, hstack⟩

theorem setTail (F : Frame P I W Q) (h : Keeps I W Q s) (n : Name) {t : TailingRecordState}
    (ht : Q t.record) : Keeps I W Q (s.setTail n t) := by
  refine ⟨F.withTail s _ h.holds, fun m u hu => ?_, h.stack⟩
  rw [setTail_getElem?] at hu
  split_ifs at hu
  · cases hu
    exact ht
  · exact h.tail m u hu

theorem eraseTail (F : Frame P I W Q) (h : Keeps I W Q s) (n : Name) :
    Keeps I W Q (s.eraseTail n) := by
  refine ⟨F.withTail s _ h.holds, fun m u hu => ?_, h.stack⟩
  rw [eraseTail_getElem?] at hu
  split_ifs at hu
  exact h.tail m u hu

/-! ## The walk -/

theorem visitPointer (F : Frame P I W Q) {w : WalkState σ} (h : Keeps I W Q w.ledger)
    (record : Record) (p : Name) : Keeps I W Q (visitPointer record p w).1.ledger := by
  unfold LedgerImpl.visitPointer
  cases RecordName.ofName p with
  | error e => exact h
  | ok preceding =>
      cases record.getProducerPrefix with
      | error f => exact h
      | ok producer =>
          simp only
          by_cases hown : RecordName.getProducerPrefix preceding.name = producer
          · rw [if_pos hown]
            exact h
          rw [if_neg hown]
          cases ht : w.ledger.tailRecords[p]? with
          | none => exact h
          | some state =>
              simp only
              split_ifs
              · exact h
              · exact h.setTail F p (h.tail p state ht)

theorem weightWalk (F : Frame P I W Q) (record : Record) (fuel : Nat) {w : WalkState σ}
    (h : Keeps I W Q w.ledger) : Keeps I W Q (weightWalk P record fuel w).1.ledger :=
  weightWalk_invariant (fun w : WalkState σ => Keeps I W Q w.ledger) (fun _ _ hw => hw)
    (fun p _ hw => hw.visitPointer F record p) fuel h

/-! ## Confirmation -/

theorem onRecordConfirmed (F : Frame P I W Q) (h : Keeps I W Q s) {record : Record}
    (hr : Q record) : Keeps I W Q (onRecordConfirmed P amb record s).1 := by
  have htail : (LedgerImpl.onRecordConfirmed P amb record s).1.tailRecords = s.tailRecords :=
    confirmAll_tailRecords P amb [record] s
  have hstack : (LedgerImpl.onRecordConfirmed P amb record s).1.syncStack = s.syncStack :=
    confirmAll_syncStack P amb [record] s
  refine ⟨F.confirm amb record s hr h.holds, ?_, ?_⟩
  · rw [htail]
    exact h.tail
  · rw [hstack]
    exact h.stack

theorem confirmUpdated (F : Frame P I W Q) {st : LedgerImpl σ × Bool} (h : Keeps I W Q st.1)
    (n : Name) {state : TailingRecordState} (hstate : Q state.record) :
    Keeps I W Q (confirmUpdated P amb n state st).1.1 := by
  unfold LedgerImpl.confirmUpdated
  split_ifs
  · have hset := h.setTail F n
      (show Q ({ state with parentEndorseVerified := true } : TailingRecordState).record
        from hstate)
    have hget : (st.1.setTail n { state with parentEndorseVerified := true }).getRecord P n
        = .ok (some state.record) := by
      simp [LedgerImpl.getRecord]
    simp only [hget]
    exact hset.onRecordConfirmed F hstate
  · exact h

theorem processUpdated (F : Frame P I W Q) {st : LedgerImpl σ × Bool} (h : Keeps I W Q st.1)
    (n : Name) : Keeps I W Q (processUpdated P amb n st).1.1 := by
  unfold LedgerImpl.processUpdated
  set tail := st.1.tailRecords.insertIfNew n {} with htail
  have hmid : Keeps I W Q (st.1.withTail tail) := by
    refine ⟨F.withTail _ _ h.holds, fun m u hu => ?_, h.stack⟩
    rw [withTail_tailRecords, htail, Std.TreeMap.getElem?_insertIfNew] at hu
    split_ifs at hu
    · cases hu
      exact F.blank
    · exact h.tail m u hu
  have hstate : Q (tail.getD n {}).record := by
    rw [Std.TreeMap.getD_eq_getD_getElem?]
    cases ht : tail[n]? with
    | none => exact F.blank
    | some t => exact hmid.tail n t ht
  have hconfirm : Keeps I W Q
      (LedgerImpl.confirmUpdated P amb n (tail.getD n {}) (st.1.withTail tail, st.2)).1.1 :=
    confirmUpdated F hmid n hstate
  rcases hrun : LedgerImpl.confirmUpdated P amb n (tail.getD n {}) (st.1.withTail tail, st.2)
    with ⟨st', f | ⟨⟨⟩⟩⟩
  · rw [hrun] at hconfirm
    unfold LedgerImpl.withTail at hrun
    simp only [hrun]
    exact hconfirm
  · rw [hrun] at hconfirm
    unfold LedgerImpl.withTail at hrun
    simp only [hrun, removeUpdated]
    split_ifs
    · exact hconfirm.eraseTail F n
    · exact hconfirm

/-! ## The rest of `addToTailingRecord` -/

theorem updateReference (F : Frame P I W Q) {st : LedgerImpl σ × Bool} (h : Keeps I W Q st.1)
    (n : Name) : Keeps I W Q (updateReference P n st).1.1 := by
  unfold LedgerImpl.updateReference
  cases ht : st.1.tailRecords[n]? with
  | none => exact h
  | some r =>
      simp only
      split_ifs
      · rcases st.1.getRecord P n with e | _ | current
        · exact h
        · exact h
        · simp only
          split_ifs
          · exact h.setTail F n (h.tail n r ht)
          · exact h
      · exact h

theorem updateReferences (F : Frame P I W Q) (fuel : Nat) {st : LedgerImpl σ × Bool}
    (h : Keeps I W Q st.1) : Keeps I W Q (updateReferences P fuel st).1 := by
  induction fuel generalizing st with
  | zero => exact h
  | succ fuel ih =>
      unfold LedgerImpl.updateReferences
      split_ifs
      · have hloop : Keeps I W Q (Outcome.forEach (LedgerImpl.updateReference P)
            st.1.tailRecords.keys (st.1, false)).1.1 :=
          Outcome.forEach_invariant (fun st : LedgerImpl σ × Bool => Keeps I W Q st.1)
            (fun n _ st hst => hst.updateReference F n) h
        rcases hrun : Outcome.forEach (LedgerImpl.updateReference P) st.1.tailRecords.keys
            (st.1, false) with ⟨st', f | ⟨⟨⟩⟩⟩
        · rw [hrun] at hloop
          exact hloop
        · rw [hrun] at hloop
          exact ih hloop
      · exact h

/-- **`addToTailingRecord` keeps what its insertion keeps.** -/
theorem addToTailingRecord (F : Frame P I W Q) (h : Keeps I W Q s) {record : Record}
    (hr : Q record) {endorseVerified : Bool}
    (hins : I s → I (s.emit (.inserted record endorseVerified))) :
    Keeps I W Q (addToTailingRecord P amb record endorseVerified s).1 := by
  unfold LedgerImpl.addToTailingRecord
  split_ifs
  · exact h
  have hinsert : Keeps I W Q (insertRecord P amb record endorseVerified s) := by
    apply setTail F _ _ hr
    exact ⟨hins h.holds, h.tail, h.stack⟩
  simp only
  -- whichever part faults, what the parts before it have kept still holds
  set start := walkStart P record endorseVerified (insertRecord P amb record endorseVerified s)
  set fuel := (insertRecord P amb record endorseVerified s).tailRecords.size + 1
  have hwalk : Keeps I W Q (LedgerImpl.weightWalk P record fuel start).1.ledger :=
    weightWalk F record fuel hinsert
  rcases hrun : LedgerImpl.weightWalk P record fuel start with ⟨w, f | ⟨⟨⟩⟩⟩
  · rw [hrun] at hwalk
    exact hwalk
  rw [hrun] at hwalk
  have hloop : Keeps I W Q (Outcome.forEach (LedgerImpl.processUpdated P amb)
      w.updatedRecords.toList (w.ledger, false)).1.1 :=
    Outcome.forEach_invariant (fun st : LedgerImpl σ × Bool => Keeps I W Q st.1)
      (fun n _ st hst => hst.processUpdated F n) hwalk
  simp only
  rcases hrun : Outcome.forEach (LedgerImpl.processUpdated P amb) w.updatedRecords.toList
      (w.ledger, false) with ⟨st, f | ⟨⟨⟩⟩⟩
  · rw [hrun] at hloop
    exact hloop
  rw [hrun] at hloop
  have hupdate := hloop.updateReferences F (st.1.tailRecords.size + 1)
  simp only
  rcases hrun : LedgerImpl.updateReferences P (st.1.tailRecords.size + 1) st
    with ⟨s', f | ⟨⟨⟩⟩⟩
  · rw [hrun] at hupdate
    exact hupdate
  · rw [hrun] at hupdate
    exact ⟨F.withTail _ _ hupdate.holds, fun n t ht =>
      hupdate.tail n t ((removeTimeoutRecords_getElem? P amb s' n t).1 ht).1, hupdate.stack⟩

end Keeps

/-- The log of insertions depends neither on the tail nor on confirmations. -/
theorem insertions_frame (J : List (Record × Bool) → Prop) :
    Frame P (fun s => J s.insertions) (fun _ => True) (fun _ => True) where
  withTail _ _ h := h
  withStack _ _ h := h
  confirm amb record s _ h := by
    rw [onRecordConfirmed_insertions]
    exact h
  blank := trivial
  waiting _ _ := trivial

variable (P amb) in
/-- `addToTailingRecord` inserts its record or nothing, however it ends. -/
theorem addToTailingRecord_insertions (record : Record) (endorseVerified : Bool)
    (s : LedgerImpl σ) :
    (addToTailingRecord P amb record endorseVerified s).1.insertions = s.insertions ∨
      (addToTailingRecord P amb record endorseVerified s).1.insertions
        = (record, endorseVerified) :: s.insertions := by
  have hkeep : Keeps (fun s' : LedgerImpl σ => s'.insertions = s.insertions ∨
        s'.insertions = (record, endorseVerified) :: s.insertions) (fun _ => True) (fun _ => True)
      (addToTailingRecord P amb record endorseVerified s).1 := by
    apply Keeps.addToTailingRecord (insertions_frame fun log =>
      log = s.insertions ∨ log = (record, endorseVerified) :: s.insertions)
    · exact ⟨Or.inl rfl, fun _ _ _ => trivial, fun _ _ => trivial⟩
    · trivial
    · exact fun _ => Or.inr (emit_insertions s _)
  exact hkeep.holds

namespace Keeps

/-! ## The handlers -/

theorem sendSyncInterest (F : CallFrame P I W Q) (h : Keeps I W Q s) :
    Keeps I W Q (sendSyncInterest amb s).1 := by
  unfold LedgerImpl.sendSyncInterest
  cases amb.signInterest with
  | error reason => exact h
  | ok u => exact h.emit F ⟨rfl, rfl⟩

theorem createRecord (F : CallFrame P I W Q) (h : Keeps I W Q s) {record : Record}
    (hr : ∀ record' data, buildRecord P amb record s = (record', .ok (.ok data)) →
      Q { record' with data := some data }) :
    Keeps I W Q (createRecord P amb record s).1 := by
  unfold LedgerImpl.createRecord
  rcases hbuild : buildRecord P amb record s with ⟨record', f | code | data⟩
  · exact h
  · exact h
  have hadd : Keeps I W Q (LedgerImpl.addToTailingRecord P amb
      { record' with data := some data } true s).1 :=
    h.addToTailingRecord F.toFrame (hr _ _ hbuild) (F.insert s _ true (hr _ _ hbuild))
  simp only
  rcases hrun : LedgerImpl.addToTailingRecord P amb { record' with data := some data } true s
    with ⟨s', f | ⟨⟨⟩⟩⟩
  · rw [hrun] at hadd
    exact hadd
  · rw [hrun] at hadd
    have hsend : Keeps I W Q (LedgerImpl.sendSyncInterest amb s').1 :=
      hadd.sendSyncInterest F
    simp only
    rcases hsync : LedgerImpl.sendSyncInterest amb s' with ⟨s₂, _ | _ | _ | _⟩ <;>
      · rw [hsync] at hsend
        exact hsend

theorem fetchUnseen (F : CallFrame P I W Q) (h : Keeps I W Q s) (names : List Name) :
    Keeps I W Q (fetchUnseen P names s).1 := by
  induction names generalizing s with
  | nil => exact h
  | cons n names ih =>
      unfold LedgerImpl.fetchUnseen
      split_ifs
      · exact ih h
      · exact ih (h.emit F ⟨rfl, rfl⟩)

/-- A received record joins the sync stack when it passes the check. -/
theorem receiveRecord (F : CallFrame P I W Q) (h : Keeps I W Q s) {data : Data}
    (hr : ∀ record, Record.ofData P.ndn data = .ok record → record.type ≠ .genesisRecord →
      checkSyntaxValidityOfRecord P amb data s = .ok true → W record) :
    Keeps I W Q (receiveRecord P amb data s).1 := by
  unfold LedgerImpl.receiveRecord
  cases hdec : Record.ofData P.ndn data with
  | error e => exact h
  | ok record =>
      simp only
      by_cases hgenesis : record.type = .genesisRecord
      · rw [if_pos hgenesis]
        exact h
      rw [if_neg hgenesis]
      rcases hcheck : checkSyntaxValidityOfRecord P amb data s with (e | _) | _ | _
      · exact h
      · exact h
      · exact h
      have hpush : Keeps I W Q (s.withStack (s.syncStack ++ [(record, amb.now)])) := by
        refine h.withStack F.toFrame fun it hit => ?_
        rcases List.mem_append.1 hit with hit | hit
        · exact h.stack it hit
        · rw [List.mem_singleton.1 hit]
          exact hr record hdec hgenesis hcheck
      have hfetch := hpush.fetchUnseen F record.recordPointers
      simp only
      split_ifs
      · cases CertificateRecord.ofRecord P.ndn record with
        | error e => exact hfetch
        | ok certRecord => exact hfetch.fetchUnseen F _
      · exact hfetch

theorem checkRecordAncestor (F : ScanFrame P I W Q) (h : Keeps I W Q s) {record : Record}
    (hr : W record) : Keeps I W Q (checkRecordAncestor P amb record s).1 := by
  unfold LedgerImpl.checkRecordAncestor
  rcases readyToAdd P record s with f | _ | _
  · exact h
  · exact h
  · cases record.data with
    | none => exact h
    | some data =>
        simp only
        rcases checkEndorseValidityOfRecord P amb data s with f | endorseVerified
        · exact h
        · have hadd : Keeps I W Q
              (LedgerImpl.addToTailingRecord P amb record endorseVerified s).1 :=
            h.addToTailingRecord F.toFrame (F.waiting record hr)
              (F.insert s record endorseVerified (F.waiting record hr))
          simp only
          rcases hrun : LedgerImpl.addToTailingRecord P amb record endorseVerified s
            with ⟨s', f | ⟨⟨⟩⟩⟩
          · rw [hrun] at hadd
            exact hadd
          · rw [hrun] at hadd
            exact hadd

theorem scanStack (F : ScanFrame P I W Q) (before rest : List (Record × Int))
    (h : Keeps I W Q s) (hbefore : ∀ it ∈ before, W it.1) (hrest : ∀ it ∈ rest, W it.1) :
    Keeps I W Q (scanStack P amb before rest s).1 := by
  induction rest generalizing before s with
  | nil => exact h
  | cons it rest ih =>
      have hit := hrest it List.mem_cons_self
      have hrest' := fun x hx => hrest x (List.mem_cons_of_mem it hx)
      have hboth : ∀ x ∈ before ++ rest, W x.1 := fun x hx =>
        (List.mem_append.1 hx).elim (hbefore x) (hrest' x)
      have hcheck : Keeps I W Q (LedgerImpl.checkRecordAncestor P amb it.1 s).1 :=
        h.checkRecordAncestor F hit
      unfold LedgerImpl.scanStack
      rcases hrun : LedgerImpl.checkRecordAncestor P amb it.1 s with ⟨s', f | _ | _⟩
      · rw [hrun] at hcheck
        exact hcheck
      · rw [hrun] at hcheck
        simp only
        split_ifs
        · exact ih before (hcheck.withStack F.toFrame hboth) hbefore hrest'
        · refine ih (before ++ [it]) hcheck (fun x hx => ?_) hrest'
          rcases List.mem_append.1 hx with hx | hx
          · exact hbefore x hx
          · rw [List.mem_singleton.1 hx]
            exact hit
      · rw [hrun] at hcheck
        exact ih before (hcheck.withStack F.toFrame hboth) hbefore hrest'

theorem rescanStack (F : ScanFrame P I W Q) (fuel : Nat) (stackSize : Option Nat)
    (h : Keeps I W Q s) : Keeps I W Q (rescanStack P amb fuel stackSize s).1 := by
  induction fuel generalizing stackSize s with
  | zero => exact h
  | succ fuel ih =>
      unfold LedgerImpl.rescanStack
      split_ifs
      · exact h
      · have hscan : Keeps I W Q (LedgerImpl.scanStack P amb [] s.syncStack s).1 :=
          h.scanStack F [] s.syncStack (by simp) h.stack
        rcases hrun : LedgerImpl.scanStack P amb [] s.syncStack s with ⟨s', f | ⟨⟨⟩⟩⟩
        · rw [hrun] at hscan
          exact hscan
        · rw [hrun] at hscan
          exact ih _ hscan

theorem onFetchedRecord (F : CallFrame P I W Q) (h : Keeps I W Q s) {data : Data}
    (hr : ∀ record, Record.ofData P.ndn data = .ok record → record.type ≠ .genesisRecord →
      checkSyntaxValidityOfRecord P amb data s = .ok true → W record) :
    Keeps I W Q (onFetchedRecord P amb data s).1 := by
  unfold LedgerImpl.onFetchedRecord
  simp only
  split_ifs
  · exact h
  · exact h
  · have hreceive := h.receiveRecord F hr
    rcases hrun : LedgerImpl.receiveRecord P amb data s with ⟨s', f | _ | _⟩
    · rw [hrun] at hreceive
      exact hreceive
    · rw [hrun] at hreceive
      exact hreceive
    · rw [hrun] at hreceive
      exact hreceive.rescanStack F.toScanFrame _ none

theorem onSyncItem (F : CallFrame P I W Q) (item : Block) {st : LedgerImpl σ × SyncFlags}
    (h : Keeps I W Q st.1) : Keeps I W Q (onSyncItem P item st).1.1 := by
  unfold LedgerImpl.onSyncItem onSyncCertificate
  split_ifs
  · cases KeyLocator.getName item with
    | none => exact h
    | some name =>
        simp only
        cases RecordName.ofName name with
        | error e => exact h
        | ok certName =>
            simp only
            split_ifs
            · exact h.emit F ⟨rfl, rfl⟩
            · exact h
  · exact h
  · cases Name.wireDecode item with
    | none => exact h
    | some recordName =>
        simp only
        split_ifs
        · exact h
        · exact h
        · exact h.emit F ⟨rfl, rfl⟩

theorem onLedgerSyncRequest (F : CallFrame P I W Q) (h : Keeps I W Q s) (interest : Interest) :
    Keeps I W Q (onLedgerSyncRequest P interest s).1 := by
  unfold LedgerImpl.onLedgerSyncRequest
  rcases P.certManager.verifyInterest s.certManager interest with e | _ | _
  · exact h
  · exact h
  · simp only
    have hcancel : Keeps I W Q (s.emit .replyCancelled) := h.emit F ⟨rfl, rfl⟩
    cases Tlv.parse interest.applicationParameters with
    | none => exact hcancel
    | some elements =>
        have hloop : Keeps I W Q (Outcome.forEach (LedgerImpl.onSyncItem P) elements
            (s.emit .replyCancelled, {})).1.1 :=
          Outcome.forEach_invariant (fun st : LedgerImpl σ × SyncFlags => Keeps I W Q st.1)
            (fun item _ st hst => hst.onSyncItem F item) hcancel
        simp only
        rcases hrun : Outcome.forEach (LedgerImpl.onSyncItem P) elements
            (s.emit .replyCancelled, {}) with ⟨st, f | ⟨⟨⟩⟩⟩
        · rw [hrun] at hloop
          exact hloop
        · rw [hrun] at hloop
          simp only
          split_ifs
          · exact hloop.emit F ⟨rfl, rfl⟩
          · exact hloop

theorem onRecordRequest (F : CallFrame P I W Q) (h : Keeps I W Q s) (interest : Interest) :
    Keeps I W Q (onRecordRequest P interest s).1 := by
  unfold LedgerImpl.onRecordRequest
  rcases s.getRecord P interest.name with e | _ | record
  · exact h
  · exact h
  · simp only
    cases record.data with
    | none => exact h
    | some data => exact h.emit F ⟨rfl, rfl⟩

end Keeps

/-! ## Calls and runs -/

/-- The records that a call makes or accepts in a state are as they should be. -/
def Permits (P : Peer σ) (W Q : Record → Prop) (s : LedgerImpl σ) : Call → Prop
  | .createRecord amb record => ∀ record' data,
      buildRecord P amb record s = (record', .ok (.ok data)) → Q { record' with data := some data }
  | .onFetchedRecord amb data => ∀ record, Record.ofData P.ndn data = .ok record →
      record.type ≠ .genesisRecord → checkSyntaxValidityOfRecord P amb data s = .ok true → W record
  | _ => True

/-- A property that does not look at the records permits every call. -/
theorem permits_of_trivial {c : Call} : Permits P (fun _ => True) (fun _ => True) s c := by
  cases c with
  | createRecord amb record => exact fun _ _ _ => trivial
  | onFetchedRecord amb data => exact fun _ _ _ _ => trivial
  | _ => trivial

/-- **Every call keeps the property.** -/
theorem Keeps.call (F : CallFrame P I W Q) (h : Keeps I W Q s) {c : Call}
    (hc : Permits P W Q s c) : Keeps I W Q (call P c s).1 := by
  cases c with
  | createRecord amb record => exact h.createRecord F hc
  | onFetchedRecord amb data => exact h.onFetchedRecord F hc
  | onLedgerSyncRequest amb interest => exact h.onLedgerSyncRequest F interest
  | onRecordRequest amb interest => exact h.onRecordRequest F interest
  | sendSyncInterest amb => exact h.sendSyncInterest F

/-- So does the constructor. -/
theorem Keeps.construct (F : CallFrame P I W Q) {db : Backend} {certManager : σ}
    (h : I (blank db certManager))
    (hgenesis : ∀ i record, genesisData P i = .ok record → Q record) :
    Keeps I W Q (construct P amb db certManager).1 := by
  have hblank : Keeps I W Q (LedgerImpl.blank db certManager) := by
    refine ⟨h, fun n t ht => ?_, fun it hit => ?_⟩
    · simp [LedgerImpl.blank] at ht
    · cases hit
  have hadd : ∀ i (s : LedgerImpl σ), Keeps I W Q s → Keeps I W Q (addGenesis P amb i s).1 := by
    intro i s hs
    unfold addGenesis
    cases hdata : genesisData P i with
    | error e => exact hs
    | ok record =>
        have hr := hgenesis i record hdata
        exact hs.addToTailingRecord F.toFrame hr (F.insert s record true hr)
  unfold LedgerImpl.construct
  simp only
  split_ifs
  · exact hblank
  · have hloop : Keeps I W Q (Outcome.forEach (addGenesis P amb)
        (List.range P.config.numGenesisBlock) (LedgerImpl.blank db certManager)).1 :=
      Outcome.forEach_invariant (Keeps I W Q) (fun i _ s hs => hadd i s hs) hblank
    rcases hrun : Outcome.forEach (addGenesis P amb) (List.range P.config.numGenesisBlock)
        (LedgerImpl.blank db certManager) with ⟨s₁, f | ⟨⟨⟩⟩⟩
    · rw [hrun] at hloop
      exact hloop
    · rw [hrun] at hloop
      exact hloop.sendSyncInterest F

/-- The states of the runs whose calls are allowed where they are made. Writes to the database
may fail, and a run may go on after an exception has escaped from a call. -/
inductive RunsTo (P : Peer σ) (db : Backend) (certManager : σ)
    (allowed : LedgerImpl σ → Call → Prop) : LedgerImpl σ → Prop where
  | start {amb : Ambient} {s : LedgerImpl σ} (h : construct P amb db certManager = (s, .ok ())) :
      RunsTo P db certManager allowed s
  | call {s : LedgerImpl σ} {c : Call} (h : RunsTo P db certManager allowed s)
      (hc : allowed s c) : RunsTo P db certManager allowed (LedgerImpl.call P c s).1

theorem RunsTo.mono {db : Backend} {certManager : σ} {allowed allowed' : LedgerImpl σ → Call → Prop}
    (hmono : ∀ s c, allowed s c → allowed' s c) (h : RunsTo P db certManager allowed s) :
    RunsTo P db certManager allowed' s := by
  induction h with
  | start h => exact RunsTo.start h
  | call _ hc ih => exact RunsTo.call ih (hmono _ _ hc)

/-- The calls from which no exception escapes. -/
def CallReturns (P : Peer σ) (s : LedgerImpl σ) (c : Call) : Prop := (call P c s).2 = .ok ()

theorem ReachableBy.runsTo {db : Backend} {certManager : σ}
    {allowed : LedgerImpl σ → Call → Prop} (h : ReachableBy P db certManager allowed s) :
    RunsTo P db certManager allowed s := by
  induction h with
  | start _ h => exact RunsTo.start h
  | @step s s' c _ _ hc hrun ih =>
      have hcall := ih.call hc
      rw [hrun] at hcall
      exact hcall

/-- **The property holds along every such run.** -/
theorem RunsTo.keeps {db : Backend} {certManager : σ} {allowed : LedgerImpl σ → Call → Prop}
    (F : CallFrame P I W Q) (hblank : I (blank db certManager))
    (hgenesis : ∀ i record, genesisData P i = .ok record → Q record)
    (hallowed : ∀ s c, Keeps I W Q s → allowed s c → Permits P W Q s c)
    (h : RunsTo P db certManager allowed s) : Keeps I W Q s := by
  induction h with
  | @start amb s hstart =>
      have hconstruct : Keeps I W Q (construct P amb db certManager).1 :=
        Keeps.construct F hblank hgenesis
      rw [hstart] at hconstruct
      exact hconstruct
  | @call s c _ hc ih => exact ih.call F (hallowed s c ih hc)

end LedgerImpl

end DLedger
