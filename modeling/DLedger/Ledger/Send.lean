import DLedger.Ledger.Keep

set_option autoImplicit false

/-! # What a call sends

A ledger asks for a record when it receives a packet or a sync Interest, and only for a record
that it has not seen. A received packet makes it ask for the unseen ones among the ancestors
that the packet names, once.
-/

namespace DLedger

open Tlv (Bytes Block)

/-- The record that an event asks for. -/
def Event.fetch? : Event → Option Name
  | .fetch recordName => some recordName
  | _ => none

namespace LedgerImpl

variable {σ : Type} {P : Peer σ} {amb : Ambient} {s s' s'' : LedgerImpl σ}

/-- The names of the Interests that were expressed for records, newest first. -/
def fetched (s : LedgerImpl σ) : List Name := s.log.filterMap Event.fetch?

/-! ## Interests do not change records -/

/-- Some events, none of which inserts or confirms, and unseen names are all that is asked
for. -/
structure OnlySends (P : Peer σ) (s s' : LedgerImpl σ) (events : List Event) : Prop where
  eq : s' = { s with log := events ++ s.log }
  quiet : ∀ e ∈ events, e.IsQuiet
  unseen : ∀ e ∈ events, ∀ n, e.fetch? = some n → s.seenRecord P n = false

theorem OnlySends.refl (s : LedgerImpl σ) : OnlySends P s s [] :=
  ⟨rfl, by simp, by simp⟩

theorem OnlySends.trans {events events' : List Event} (h : OnlySends P s s' events)
    (h' : OnlySends P s' s'' events') : OnlySends P s s'' (events' ++ events) := by
  refine ⟨?_, fun e he => ?_, fun e he n hn => ?_⟩
  · rw [h'.eq, h.eq, List.append_assoc]
  · exact (List.mem_append.1 he).elim (h'.quiet e) (h.quiet e)
  · rcases List.mem_append.1 he with he | he
    · have hunseen := h'.unseen e he n hn
      rw [h.eq] at hunseen
      exact hunseen
    · exact h.unseen e he n hn

/-- An event that asks for nothing. -/
theorem OnlySends.emit (s : LedgerImpl σ) {e : Event} (he : e.IsQuiet) (hfetch : e.fetch? = none) :
    OnlySends P s (s.emit e) [e] := by
  refine ⟨rfl, fun e' he' => ?_, fun e' he' n hn => ?_⟩
  · rw [List.mem_singleton.1 he']
    exact he
  · rw [List.mem_singleton.1 he', hfetch] at hn
    cases hn

theorem OnlySends.fetchRecord {n : Name} (hn : s.seenRecord P n = false) :
    OnlySends P s (fetchRecord n s) [.fetch n] := by
  refine ⟨rfl, fun e he => ?_, fun e he m hm => ?_⟩
  · rw [List.mem_singleton.1 he]
    exact ⟨rfl, rfl⟩
  · rw [List.mem_singleton.1 he] at hm
    cases hm
    exact hn

theorem OnlySends.fetched {events : List Event} (h : OnlySends P s s' events) :
    s'.fetched = events.filterMap Event.fetch? ++ s.fetched := by
  rw [h.eq, LedgerImpl.fetched, List.filterMap_append]
  rfl

theorem OnlySends.sameRecords {events : List Event} (h : OnlySends P s s' events) :
    SameRecords s s' := by
  have hnone : ∀ {β : Type} (f : Event → Option β), (∀ e ∈ events, f e = none) →
      (events ++ s.log).filterMap f = s.log.filterMap f := by
    intro β f hf
    rw [List.filterMap_append, List.filterMap_eq_nil_iff.2 hf, List.nil_append]
  obtain ⟨rfl, hquiet, hunseen⟩ := h
  refine ⟨rfl, rfl, hnone _ fun e he => (hquiet e he).1, hnone _ fun e he => (hquiet e he).2, ?_⟩
  show (events ++ s.log).foldr Event.addTo [] = s.calls
  rw [List.foldr_append]
  clear hnone hunseen
  induction events with
  | nil => rfl
  | cons e events ih =>
      rw [List.foldr_cons, (hquiet e List.mem_cons_self).addTo]
      exact ih fun e' he' => hquiet e' (List.mem_cons_of_mem e he')

/-! ## Sync Interests and record Interests -/

variable (P amb) in
theorem sendSyncInterest_sends (s : LedgerImpl σ) :
    ∃ events, OnlySends P s (sendSyncInterest amb s).1 events := by
  unfold sendSyncInterest
  cases amb.signInterest with
  | error reason => exact ⟨[], OnlySends.refl s⟩
  | ok u => exact ⟨_, OnlySends.emit s ⟨rfl, rfl⟩ rfl⟩

theorem onSyncItem_sends (item : Block) (st : LedgerImpl σ × SyncFlags) :
    ∃ events, OnlySends P st.1 (onSyncItem P item st).1.1 events := by
  have hnone : ∃ events, OnlySends P st.1 st.1 events := ⟨[], OnlySends.refl st.1⟩
  unfold onSyncItem onSyncCertificate
  split_ifs
  · cases KeyLocator.getName item with
    | none => exact hnone
    | some name =>
        simp only
        cases RecordName.ofName name with
        | error e => exact hnone
        | ok certName =>
            simp only
            split_ifs with hcert
            · rw [Bool.and_eq_true, Bool.not_eq_true'] at hcert
              exact ⟨_, OnlySends.fetchRecord hcert.2⟩
            · exact hnone
  · exact hnone
  · cases Name.wireDecode item with
    | none => exact hnone
    | some recordName =>
        simp only
        split_ifs with _ hseen
        · exact hnone
        · exact hnone
        · exact ⟨_, OnlySends.fetchRecord (Bool.eq_false_iff.2 hseen)⟩

theorem onLedgerSyncRequest_sends (interest : Interest) (s : LedgerImpl σ) :
    ∃ events, OnlySends P s (onLedgerSyncRequest P interest s).1 events := by
  unfold onLedgerSyncRequest
  rcases P.certManager.verifyInterest s.certManager interest with e | _ | _
  · exact ⟨[], OnlySends.refl s⟩
  · exact ⟨[], OnlySends.refl s⟩
  simp only
  have hcancel : ∃ events, OnlySends P s (s.emit .replyCancelled) events :=
    ⟨_, OnlySends.emit s ⟨rfl, rfl⟩ rfl⟩
  cases Tlv.parse interest.applicationParameters with
  | none => exact hcancel
  | some elements =>
      have hloop : ∃ events, OnlySends P s
          (Outcome.forEach (onSyncItem P) elements (s.emit .replyCancelled, {})).1.1 events := by
        refine Outcome.forEach_invariant
          (fun st : LedgerImpl σ × SyncFlags => ∃ events, OnlySends P s st.1 events)
          (fun item _ st hst => ?_) hcancel
        obtain ⟨events, h⟩ := hst
        obtain ⟨events', h'⟩ := onSyncItem_sends (P := P) item st
        exact ⟨_, h.trans h'⟩
      simp only
      rcases hrun : Outcome.forEach (onSyncItem P) elements (s.emit .replyCancelled, {}) with
        ⟨st, f | ⟨⟨⟩⟩⟩
      · rw [hrun] at hloop
        exact hloop
      · rw [hrun] at hloop
        obtain ⟨events, h⟩ := hloop
        simp only
        split_ifs
        · exact ⟨_, h.trans (OnlySends.emit st.1 ⟨rfl, rfl⟩ rfl)⟩
        · exact ⟨events, h⟩

theorem onRecordRequest_sends (interest : Interest) (s : LedgerImpl σ) :
    ∃ events, OnlySends P s (onRecordRequest P interest s).1 events := by
  unfold onRecordRequest
  rcases s.getRecord P interest.name with e | _ | record
  · exact ⟨[], OnlySends.refl s⟩
  · exact ⟨[], OnlySends.refl s⟩
  · simp only
    cases record.data with
    | none => exact ⟨[], OnlySends.refl s⟩
    | some data => exact ⟨_, OnlySends.emit s ⟨rfl, rfl⟩ rfl⟩

/-- A call creates a record, or receives a packet, or only sends. -/
theorem call_cases (c : Call) (s : LedgerImpl σ) :
    (∃ amb record, c = .createRecord amb record) ∨ (∃ amb data, c = .onFetchedRecord amb data) ∨
      ∃ events, OnlySends P s (call P c s).1 events := by
  cases c with
  | createRecord amb record => exact Or.inl ⟨amb, record, rfl⟩
  | onFetchedRecord amb data => exact Or.inr (Or.inl ⟨amb, data, rfl⟩)
  | onLedgerSyncRequest amb interest => exact Or.inr (Or.inr (onLedgerSyncRequest_sends interest s))
  | onRecordRequest amb interest => exact Or.inr (Or.inr (onRecordRequest_sends interest s))
  | sendSyncInterest amb => exact Or.inr (Or.inr (sendSyncInterest_sends P amb s))

/-! ## Received packets -/

theorem fetchUnseen_eq (names : List Name) (s : LedgerImpl σ) :
    fetchUnseen P names s
      = ({ s with log := ((names.filter fun n => !s.seenRecord P n).map Event.fetch).reverse
            ++ s.log },
          names.all fun n => s.seenRecord P n) := by
  induction names generalizing s with
  | nil => rfl
  | cons n names ih =>
      rw [fetchUnseen]
      by_cases hn : s.seenRecord P n = true
      · rw [if_pos hn, ih]
        simp [hn]
      · have hsame : ∀ m, (fetchRecord n s).seenRecord P m = s.seenRecord P m := fun m => rfl
        rw [if_neg hn, ih]
        simp only [hsame, Bool.not_eq_true] at hn ⊢
        simp [hn, fetchRecord, emit]

/-- The previous certificate records that a record names. -/
def prevCertNames (ndn : Ndn) (record : Record) : List Name :=
  if record.type = .certificateRecord then
    match CertificateRecord.ofRecord ndn record with
    | .error _ => []
    | .ok certRecord => certRecord.prevCert.filter (· ≠ [])
  else []

/-- All that a record waits for. -/
def ancestorNames (ndn : Ndn) (record : Record) : List Name :=
  record.recordPointers ++ prevCertNames ndn record

/-- A certificate record can be read as one. -/
def Readable (ndn : Ndn) (record : Record) : Prop :=
  record.type = .certificateRecord → ∃ c, CertificateRecord.ofRecord ndn record = .ok c

instance (ndn : Ndn) (record : Record) : Decidable (Readable ndn record) :=
  match h : CertificateRecord.ofRecord ndn record with
  | .ok c => .isTrue fun _ => ⟨c, h⟩
  | .error _ =>
      if htype : record.type = .certificateRecord then
        .isFalse fun hread => by
          obtain ⟨c, hc⟩ := hread htype
          rw [h] at hc
          cases hc
      else .isTrue fun htype' => absurd htype' htype

/-- A ledger after it has received a record: the record waits, and its unseen ancestors are
asked for. -/
def received (P : Peer σ) (now : Int) (record : Record) (s : LedgerImpl σ) : LedgerImpl σ :=
  { s with
    syncStack := s.syncStack ++ [(record, now)]
    log := (((ancestorNames P.ndn record).filter fun n => !s.seenRecord P n).map
      Event.fetch).reverse ++ s.log }

/-- All that a record waits for is seen. -/
def ancestorsSeen (P : Peer σ) (record : Record) (s : LedgerImpl σ) : Bool :=
  decide (Readable P.ndn record) && (ancestorNames P.ndn record).all fun n => s.seenRecord P n

/-- The `try` block receives a record that passes the checks. -/
theorem receiveRecord_eq {data : Data} {record : Record}
    (hdec : Record.ofData P.ndn data = .ok record) (htype : record.type ≠ .genesisRecord)
    (hcheck : checkSyntaxValidityOfRecord P amb data s = .ok true) :
    receiveRecord P amb data s
      = (received P amb.now record s, .ok (ancestorsSeen P record s)) := by
  have hseen : ∀ (stack : List (Record × Int)) (log : List Event) n,
      ({ s with syncStack := stack, log := log } : LedgerImpl σ).seenRecord P n
        = s.seenRecord P n := fun _ _ _ => rfl
  unfold receiveRecord
  simp only [hdec, if_neg htype, hcheck, fetchUnseen_eq, received, ancestorsSeen, ancestorNames,
    prevCertNames]
  by_cases hcert : record.type = .certificateRecord
  · simp only [if_pos hcert]
    cases hread : CertificateRecord.ofRecord P.ndn record with
    | error e =>
        have hnot : ¬ Readable P.ndn record := fun h => by
          obtain ⟨c, hc⟩ := h hcert
          rw [hread] at hc
          cases hc
        simp [hnot, seenRecord]
    | ok certRecord =>
        have hyes : Readable P.ndn record := fun _ => ⟨certRecord, hread⟩
        simp [hyes, seenRecord]
  · have hyes : Readable P.ndn record := fun h => absurd h hcert
    simp only [if_neg hcert]
    simp [hyes, seenRecord]

variable (P amb) in
/-- **What the `try` block of a packet does**: nothing, or its record passes the checks. -/
theorem receiveRecord_cases (data : Data) (s : LedgerImpl σ) :
    receiveRecord P amb data s = (s, .ok false) ∨
      ∃ record, Record.ofData P.ndn data = .ok record ∧ record.type ≠ .genesisRecord ∧
        checkSyntaxValidityOfRecord P amb data s = .ok true := by
  unfold receiveRecord
  cases hdec : Record.ofData P.ndn data with
  | error e => exact Or.inl rfl
  | ok record =>
      simp only
      by_cases hgenesis : record.type = .genesisRecord
      · rw [if_pos hgenesis]
        exact Or.inl rfl
      rw [if_neg hgenesis]
      rcases hcheck : checkSyntaxValidityOfRecord P amb data s with (e | _) | _ | _
      · exact Or.inl rfl
      · exact absurd hcheck (checkSyntaxValidityOfRecord_defined data s)
      · exact Or.inl rfl
      · exact Or.inr ⟨record, rfl, hgenesis, rfl⟩

/-- A packet that a ledger does not know yet and whose record passes the checks. -/
structure Receivable (P : Peer σ) (amb : Ambient) (data : Data) (record : Record)
    (s : LedgerImpl σ) : Prop where
  decoded : Record.ofData P.ndn data = .ok record
  type_ne : record.type ≠ .genesisRecord
  checked : checkSyntaxValidityOfRecord P amb data s = .ok true
  unseen : s.seenRecord P (P.ndn.fullName data) = false
  unstacked : ∀ it ∈ s.syncStack, it.1.getRecordName P.ndn ≠ P.ndn.fullName data

variable (P amb) in
/-- **`onFetchedRecord` does nothing, or it receives the record.** -/
theorem onFetchedRecord_cases (data : Data) (s : LedgerImpl σ) :
    onFetchedRecord P amb data s = (s, .ok ()) ∨ ∃ record, Receivable P amb data record s := by
  unfold onFetchedRecord
  dsimp only
  split_ifs with hseen hstacked
  · exact Or.inl rfl
  · exact Or.inl rfl
  rcases receiveRecord_cases P amb data s with hrun | ⟨record, hdec, htype, hcheck⟩
  · rw [hrun]
    exact Or.inl rfl
  · exact Or.inr ⟨record, hdec, htype, hcheck, Bool.not_eq_true _ ▸ hseen,
      unstacked_of_any hstacked⟩

/-- A pass over the sync stack begins when the record waits for nothing. -/
theorem Receivable.onFetchedRecord_eq {data : Data} {record : Record}
    (h : Receivable P amb data record s) :
    onFetchedRecord P amb data s
      = if ancestorsSeen P record s = true then
          rescanStack P amb ((received P amb.now record s).syncStack.length + 2) none
            (received P amb.now record s)
        else (received P amb.now record s, .ok ()) := by
  have hstacked : ¬ (s.syncStack.any fun stackRecord =>
      stackRecord.1.getRecordName P.ndn == P.ndn.fullName data) = true := by
    intro hany
    obtain ⟨it, hit, hname⟩ := List.any_eq_true.1 hany
    exact h.unstacked it hit (beq_iff_eq.1 hname)
  unfold onFetchedRecord
  dsimp only
  rw [if_neg (by simp [h.unseen]), if_neg hstacked,
    receiveRecord_eq h.decoded h.type_ne h.checked]
  cases ancestorsSeen P record s <;> rfl

/-- To receive a record is to make moves. -/
theorem Receivable.moves {accepted : Data → Prop} {data : Data} {record : Record}
    (h : Receivable P amb data record s) (haccepted : accepted data) :
    ReceiveMoves P amb accepted s (received P amb.now record s) := by
  obtain ⟨s', ready, hrun, hmoves⟩ := receiveRecord_moves amb haccepted h.unseen h.unstacked
  rw [receiveRecord_eq h.decoded h.type_ne h.checked] at hrun
  cases hrun
  exact hmoves

theorem received_fetched (now : Int) (record : Record) (s : LedgerImpl σ) :
    (received P now record s).fetched
      = ((ancestorNames P.ndn record).filter fun n => !s.seenRecord P n).reverse ++ s.fetched := by
  rw [fetched, received, List.filterMap_append, ← List.map_reverse, List.filterMap_map]
  congr 1
  exact List.filterMap_some

/-! ## Additions ask for nothing -/

theorem onRecordConfirmed_fetched (record : Record) (s : LedgerImpl σ) :
    (onRecordConfirmed P amb record s).1.fetched = s.fetched := by
  cases hdata : record.data with
  | none => simp only [onRecordConfirmed, hdata]
  | some d =>
      obtain ⟨_, _, events, heq, _, hevents⟩ := onRecordConfirmed_eq P amb hdata s
      rw [heq]
      rcases hevents with rfl | rfl <;> rfl

/-- What was asked for stays the same when records are added. -/
theorem fetched_frame (names : List Name) (W : Record → Prop) :
    ScanFrame P (fun s => s.fetched = names) W (fun _ => True) where
  withTail _ _ h := h
  withStack _ _ h := h
  confirm _ record s _ h := (onRecordConfirmed_fetched record s).trans h
  blank := trivial
  waiting _ _ := trivial
  insert _ _ _ _ h := h

/-- A ledger that keeps what it has asked for, and where no more records wait. -/
abbrev AsksNothing (s s' : LedgerImpl σ) : Prop :=
  Keeps (fun s' => s'.fetched = s.fetched) (fun r => ∃ it ∈ s.syncStack, it.1 = r)
    (fun _ => True) s'

theorem AsksNothing.refl (s : LedgerImpl σ) : AsksNothing s s :=
  ⟨rfl, fun _ _ _ => trivial, fun it hit => ⟨it, hit, rfl⟩⟩

theorem AsksNothing.addToTailingRecord (h : AsksNothing s s') (record : Record)
    (endorseVerified : Bool) :
    AsksNothing s (addToTailingRecord P amb record endorseVerified s').1 :=
  Keeps.addToTailingRecord (fetched_frame s.fetched _).toFrame h trivial fun hI => hI

theorem AsksNothing.sendSyncInterest (h : AsksNothing s s') :
    AsksNothing s (sendSyncInterest amb s').1 := by
  unfold LedgerImpl.sendSyncInterest
  cases amb.signInterest with
  | error reason => exact h
  | ok u => exact ⟨h.holds, h.tail, h.stack⟩

variable (P amb) in
/-- The constructor asks for nothing, and nothing waits after it. -/
theorem construct_asksNothing (db : Backend) (certManager : σ) :
    AsksNothing (blank db certManager) (construct P amb db certManager).1 := by
  have hblank := AsksNothing.refl (blank db certManager)
  have hloop : AsksNothing (blank db certManager) (Outcome.forEach (addGenesis P amb)
      (List.range P.config.numGenesisBlock) (blank db certManager)).1 := by
    refine Outcome.forEach_invariant (AsksNothing (blank db certManager)) (fun i _ s hs => ?_)
      hblank
    unfold addGenesis
    cases genesisData P i with
    | error e => exact hs
    | ok record => exact hs.addToTailingRecord record true
  unfold construct
  simp only
  split_ifs
  · exact hblank
  · rcases hrun : Outcome.forEach (addGenesis P amb) (List.range P.config.numGenesisBlock)
        (blank db certManager) with ⟨s₁, f | ⟨⟨⟩⟩⟩
    · rw [hrun] at hloop
      exact hloop
    · rw [hrun] at hloop
      exact hloop.sendSyncInterest

theorem createRecord_asksNothing (record : Record) (s : LedgerImpl σ) :
    AsksNothing s (createRecord P amb record s).1 := by
  unfold createRecord
  rcases buildRecord P amb record s with ⟨record', f | code | data⟩
  · exact AsksNothing.refl s
  · exact AsksNothing.refl s
  have hadd : AsksNothing s
      (addToTailingRecord P amb { record' with data := some data } true s).1 :=
    (AsksNothing.refl s).addToTailingRecord _ true
  simp only
  rcases hrun : addToTailingRecord P amb { record' with data := some data } true s
    with ⟨s₁, f | ⟨⟨⟩⟩⟩
  · rw [hrun] at hadd
    exact hadd
  · rw [hrun] at hadd
    have hsend : AsksNothing s (sendSyncInterest amb s₁).1 := hadd.sendSyncInterest
    simp only
    rcases hsync : sendSyncInterest amb s₁ with ⟨s₂, _ | _ | _ | _⟩ <;>
      · rw [hsync] at hsend
        exact hsend

/-- All that is asked for is unseen, and a record that starts to wait has its ancestors seen or
they are asked for. -/
def Asks (P : Peer σ) (s s' : LedgerImpl σ) : Prop :=
  ∃ new, s'.fetched = new ++ s.fetched ∧ (∀ n ∈ new, s.seenRecord P n = false) ∧
    ∀ it ∈ s'.syncStack, (∃ it' ∈ s.syncStack, it'.1 = it.1) ∨
      ∀ p ∈ ancestorNames P.ndn it.1, s.seenRecord P p = true ∨ p ∈ new

theorem AsksNothing.asks (h : AsksNothing s s') : Asks P s s' :=
  ⟨[], h.holds, by simp, fun it hit => Or.inl (h.stack it hit)⟩

theorem OnlySends.asks {events : List Event} (h : OnlySends P s s' events) : Asks P s s' := by
  refine ⟨_, h.fetched, fun n hn => ?_, fun it hit => Or.inl ⟨it, ?_, rfl⟩⟩
  · obtain ⟨e, he, hfetch⟩ := List.mem_filterMap.1 hn
    exact h.unseen e he n hfetch
  · rw [h.eq] at hit
    exact hit

/-- A received record waits, and whatever happens to it then asks for nothing. -/
theorem AsksNothing.asks_of_received {now : Int} {record : Record}
    (h : AsksNothing (received P now record s) s') : Asks P s s' := by
  refine ⟨_, h.holds.trans (received_fetched now record s), fun n hn => ?_, fun it hit => ?_⟩
  · rw [List.mem_reverse, List.mem_filter, Bool.not_eq_true'] at hn
    exact hn.2
  · obtain ⟨it', hit', heq⟩ := h.stack it hit
    rcases List.mem_append.1 hit' with hit' | hit'
    · exact Or.inl ⟨it', hit', heq⟩
    · right
      intro p hp
      rw [List.mem_singleton.1 hit'] at heq
      rw [← heq] at hp
      cases hseen : s.seenRecord P p with
      | true => exact Or.inl rfl
      | false => exact Or.inr (List.mem_reverse.2 (List.mem_filter.2 ⟨hp, by rw [hseen]; rfl⟩))

theorem onFetchedRecord_asks (data : Data) (s : LedgerImpl σ) :
    Asks P s (onFetchedRecord P amb data s).1 := by
  rcases onFetchedRecord_cases P amb data s with hrun | ⟨record, hr⟩
  · rw [hrun]
    exact (AsksNothing.refl s).asks
  rw [hr.onFetchedRecord_eq]
  have hstart := AsksNothing.refl (received P amb.now record s)
  split_ifs
  · have hscan : AsksNothing (received P amb.now record s) (rescanStack P amb
        ((received P amb.now record s).syncStack.length + 2) none
        (received P amb.now record s)).1 :=
      Keeps.rescanStack (fetched_frame _ _) _ none hstart
    exact hscan.asks_of_received
  · exact hstart.asks_of_received

/-- **What a call asks for is unseen.** -/
theorem call_asks (c : Call) (s : LedgerImpl σ) : Asks P s (call P c s).1 := by
  rcases call_cases (P := P) c s with ⟨amb, record, rfl⟩ | ⟨amb, data, rfl⟩ | ⟨events, h⟩
  · exact (createRecord_asksNothing record s).asks
  · exact onFetchedRecord_asks data s
  · exact h.asks

end LedgerImpl

end DLedger
