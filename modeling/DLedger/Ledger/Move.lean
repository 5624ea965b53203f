import DLedger.Ledger.Handlers
import DLedger.Ledger.Invariant

set_option autoImplicit false

/-! # The moves of a ledger

A call of a ledger that returns is a sequence of moves: it sends something, a received record
joins the sync stack, an entry of the stack times out or is resolved, or a new record is
added. `LedgerInv` extends the invariant of the tail by the sync stack, and every move keeps
it.
-/

namespace DLedger

open Tlv (Bytes Block)

/-- An event that neither inserts nor confirms a record. -/
def Event.IsQuiet (e : Event) : Prop := e.insertion? = none ∧ e.confirmation? = none

theorem Event.IsQuiet.addTo {e : Event} (h : e.IsQuiet) (calls : List (List Record)) :
    e.addTo calls = calls := by
  cases e with
  | inserted record endorseVerified => cases h.1
  | confirmed record => cases h.2
  | _ => rfl

namespace LedgerImpl

variable {σ : Type}

/-! ## The moves -/

/-- A new record with its packet, as `createRecord` makes it: every pointer is one of the
candidates. -/
structure Built (P : Peer σ) (s : LedgerImpl σ) (record : Record) (data : Data) : Prop where
  data_eq : record.data = some data
  type_ne : record.type ≠ .genesisRecord
  named : RecordName.check (P.ndn.fullName data) = .ok () →
    Record.Named P.ndn (P.ndn.fullName data) record
  producer : RecordName.getProducerPrefix (P.ndn.fullName data) = P.config.peerPrefix
  pointer : ∀ p ∈ record.recordPointers, ∃ t, s.tailRecords[p]? = some t ∧
    t.parentEndorseVerified = true ∧ t.refSet.card ≤ P.config.appendWeight ∧
      P.config.peerPrefix.isPrefixOf p = false

/-- A full name that is neither stored nor waits in the sync stack. -/
def Unknown (P : Peer σ) (s : LedgerImpl σ) (n : Name) : Prop :=
  s.backend.getRecord P.ndn n = none ∧ ∀ it ∈ s.syncStack, it.1.getRecordName P.ndn ≠ n

/-- The moves of a call that an incoming packet starts, by the packets that are received. -/
inductive ReceiveMove (P : Peer σ) (amb : Ambient) (received : Data → Prop) :
    LedgerImpl σ → LedgerImpl σ → Prop where
  | emit {s : LedgerImpl σ} {e : Event} (quiet : e.IsQuiet) :
      ReceiveMove P amb received s (s.emit e)
  | push {s : LedgerImpl σ} {data : Data} {record : Record} (receive : received data)
      (decoded : Record.ofData P.ndn data = .ok record)
      (type_ne : record.type ≠ .genesisRecord)
      (unseen : s.seenRecord P (P.ndn.fullName data) = false)
      (unstacked : ∀ it ∈ s.syncStack, it.1.getRecordName P.ndn ≠ P.ndn.fullName data)
      (checked : checkSyntaxValidityOfRecord P amb data s = .ok true) :
      ReceiveMove P amb received s (s.withStack (s.syncStack ++ [(record, amb.now)]))
  | drop {s : LedgerImpl σ} {before rest : List (Record × Int)} {it : Record × Int}
      (stack : s.syncStack = before ++ it :: rest)
      (late : P.config.ancestorFetchTimeout < |amb.now - it.2|) :
      ReceiveMove P amb received s (s.withStack (before ++ rest))
  | resolve {s s' : LedgerImpl σ} {before rest : List (Record × Int)} {it : Record × Int}
      {data : Data} {endorseVerified : Bool}
      (stack : s.syncStack = before ++ it :: rest)
      (ready : readyToAdd P it.1 s = .ok true)
      (data_eq : it.1.data = some data)
      (endorse : checkEndorseValidityOfRecord P amb data s = .ok endorseVerified)
      (added : addToTailingRecord P amb it.1 endorseVerified s = (s', .ok ())) :
      ReceiveMove P amb received s (s'.withStack (before ++ rest))

inductive Move (P : Peer σ) (amb : Ambient) : LedgerImpl σ → LedgerImpl σ → Prop where
  | receive {s s' : LedgerImpl σ} {received : Data → Prop}
      (h : ReceiveMove P amb received s s') : Move P amb s s'
  | create {s s' : LedgerImpl σ} {record : Record} {data : Data}
      (built : Built P s record data)
      (new : s.tailRecords[P.ndn.fullName data]? = none → Unknown P s (P.ndn.fullName data))
      (added : addToTailingRecord P amb record true s = (s', .ok ())) :
      Move P amb s s'

abbrev ReceiveMoves (P : Peer σ) (amb : Ambient) (received : Data → Prop) :
    LedgerImpl σ → LedgerImpl σ → Prop :=
  Relation.ReflTransGen (ReceiveMove P amb received)

/-- The moves of a call. -/
abbrev Moves (P : Peer σ) (amb : Ambient) : LedgerImpl σ → LedgerImpl σ → Prop :=
  Relation.ReflTransGen (Move P amb)

/-! ## The invariant -/

/-- What waits in the sync stack is not seen, and no record waits twice. -/
structure StackInv (P : Peer σ) (s : LedgerImpl σ) : Prop where
  waiting : ∀ it ∈ s.syncStack, ∃ n, Record.Named P.ndn n it.1 ∧
    s.tailRecords[n]? = none ∧ s.backend.getRecord P.ndn n = none
  pointerName : ∀ it ∈ s.syncStack, ∀ p ∈ it.1.recordPointers, RecordName.check p = .ok ()
  type_ne : ∀ it ∈ s.syncStack, it.1.type ≠ .genesisRecord
  nodup : (s.syncStack.map fun it => it.1.getRecordName P.ndn).Nodup

structure LedgerInv (P : Peer σ) (s : LedgerImpl σ) : Prop where
  tail : TailInv P s
  stack : StackInv P s

/-- The part of it that the next addition needs. -/
structure LedgerHeld (P : Peer σ) (s : LedgerImpl σ) : Prop where
  tail : TailHeld P s
  stack : StackInv P s

variable {P : Peer σ} {amb : Ambient} {received : Data → Prop} {s s' : LedgerImpl σ}

theorem LedgerInv.ledgerHeld (hs : LedgerInv P s) : LedgerHeld P s := ⟨hs.tail.tailHeld, hs.stack⟩

/-- A part of the sync stack waits as the whole did. -/
theorem StackInv.sublist (hs : StackInv P s) {stack : List (Record × Int)}
    (hsub : stack.Sublist s.syncStack) : StackInv P (s.withStack stack) :=
  ⟨fun it hit => hs.waiting it (hsub.subset hit), fun it hit => hs.pointerName it (hsub.subset hit),
    fun it hit => hs.type_ne it (hsub.subset hit), hs.nodup.sublist (hsub.map _)⟩

/-- The other entries have other names. -/
theorem StackInv.name_ne (hs : StackInv P s) {before rest : List (Record × Int)}
    {it it' : Record × Int} (hstack : s.syncStack = before ++ it :: rest)
    (hit' : it' ∈ before ++ rest) : it'.1.getRecordName P.ndn ≠ it.1.getRecordName P.ndn := by
  have hnodup := hs.nodup
  rw [hstack, List.map_append, List.map_cons, List.nodup_middle, List.nodup_cons,
    ← List.map_append] at hnodup
  exact fun heq => hnodup.1 (List.mem_map.2 ⟨it', hit', heq⟩)

/-! ## Ready records -/

/-- A pointer that `hasRecord` accepts. -/
theorem hasRecord_held {p : Name} (h : s.hasRecord P (P.ndn.toUri p) = true) :
    ((∃ t, s.tailRecords[p]? = some t) ∨ ∃ d, s.backend.getRecord P.ndn p = some d) ∧
      ∀ t, s.tailRecords[p]? = some t → t.parentEndorseVerified = true := by
  rcases hasRecord_toUri.1 h with ⟨t, ht, hv⟩ | ⟨hnone, hd⟩
  · refine ⟨Or.inl ⟨t, ht⟩, fun u hu => ?_⟩
    rw [ht] at hu
    cases hu
    exact hv
  · refine ⟨Or.inr hd, fun u hu => ?_⟩
    rw [hnone] at hu
    cases hu

theorem readyToAdd_pointers {record : Record} (h : readyToAdd P record s = .ok true) :
    ∀ p ∈ record.recordPointers, s.hasRecord P (P.ndn.toUri p) = true := by
  unfold readyToAdd at h
  split_ifs at h with htype
  · cases hc : CertificateRecord.ofRecord P.ndn record with
    | error e => rw [hc] at h; cases h
    | ok certRecord =>
        rw [hc] at h
        simp only [Except.ok.injEq, Bool.and_eq_true, List.all_eq_true] at h
        exact h.1
  · simp only [Except.ok.injEq, List.all_eq_true] at h
    exact h

/-- A record that is neither in the tail nor stored is pointed to by no tailing record. -/
theorem TailHeld.unpointed (hs : TailHeld P s) {n : Name} (hn : s.tailRecords[n]? = none)
    (hb : s.backend.getRecord P.ndn n = none) (m : Name) (t : TailingRecordState)
    (ht : s.tailRecords[m]? = some t) : n ∉ t.record.recordPointers := by
  intro hp
  rcases hs.held m t ht n hp with ⟨u, hu⟩ | ⟨d, hd⟩
  · rw [hn] at hu; cases hu
  · rw [hb] at hd; cases hd

/-- An entry of the sync stack that waits for nothing is ready to be added, when its name is
a record name or it is not endorsed. -/
theorem LedgerHeld.ready_stack (hs : LedgerHeld P s) {it : Record × Int} (hit : it ∈ s.syncStack)
    (hready : readyToAdd P it.1 s = .ok true) {endorseVerified : Bool} {n : Name}
    (hn : Record.Named P.ndn n it.1)
    (hname : endorseVerified = true → RecordName.check n = .ok ()) :
    AddReady P s it.1 endorseVerified n ∧ s.backend.getRecord P.ndn n = none ∧
      (∀ p ∈ it.1.recordPointers,
        (∃ u, s.tailRecords[p]? = some u) ∨ ∃ d, s.backend.getRecord P.ndn p = some d) := by
  obtain ⟨m, hm, htail, hback⟩ := hs.stack.waiting it hit
  have hmn : m = n := by rw [← hm.getRecordName, hn.getRecordName]
  subst hmn
  have hpointers := readyToAdd_pointers hready
  exact ⟨⟨hn, hname, htail, fun p hp => (hasRecord_held (hpointers p hp)).2,
    fun _ => hs.stack.pointerName it hit, hs.tail.unpointed htail hback⟩, hback,
    fun p hp => (hasRecord_held (hpointers p hp)).1⟩

/-- So is a new record. -/
theorem LedgerHeld.ready_built (hs : LedgerHeld P s) {record : Record} {data : Data}
    (hbuilt : Built P s record data) (hfresh : s.tailRecords[P.ndn.fullName data]? = none)
    (hback : s.backend.getRecord P.ndn (P.ndn.fullName data) = none)
    (hname : RecordName.check (P.ndn.fullName data) = .ok ()) :
    AddReady P s record true (P.ndn.fullName data) where
  named := hbuilt.named hname
  name _ := hname
  fresh := hfresh
  verified p hp t ht := by
    obtain ⟨u, hu, hv, _⟩ := hbuilt.pointer p hp
    rw [hu] at ht
    cases ht
    exact hv
  pointerName _ p hp := by
    obtain ⟨u, hu, hv, _⟩ := hbuilt.pointer p hp
    exact hs.tail.sound.name p u hu (hs.tail.sound.flags p u hu ▸ hv)
  unpointed := hs.tail.unpointed hfresh hback

/-! ## What a move inserts -/

/-- A successful insertion of a record that was ready and new. -/
structure Inserted (P : Peer σ) (amb : Ambient) (record : Record) (endorseVerified : Bool)
    (n : Name) (s s' : LedgerImpl σ) (marked : Finset Name) (names : List Name)
    (mid : TailMap) : Prop
    extends Added P amb record endorseVerified n s s' marked names mid where
  ready : AddReady P s record endorseVerified n
  unstored : s.backend.getRecord P.ndn n = none
  held : ∀ p ∈ record.recordPointers,
    (∃ u, s.tailRecords[p]? = some u) ∨ ∃ d, s.backend.getRecord P.ndn p = some d
  genesis : endorseVerified = true → RecordName.getRecordType n = .genesisRecord →
    record.recordPointers = []

/-- An addition that succeeds for a record that is ready under a good name. -/
theorem added_of_ok (hs : TailSound P.ndn s.tailRecords.lookup) {record : Record}
    {endorseVerified : Bool} {d : Data} (hd : record.data = some d)
    (hfresh : s.tailRecords[P.ndn.fullName d]? = none)
    (hready : (endorseVerified = true → RecordName.check (P.ndn.fullName d) = .ok ()) →
      AddReady P s record endorseVerified (P.ndn.fullName d))
    (htype : record.type = .genesisRecord → record.recordPointers = [])
    (hadd : addToTailingRecord P amb record endorseVerified s = (s', .ok ())) :
    AddReady P s record endorseVerified (P.ndn.fullName d) ∧
      (endorseVerified = true → RecordName.getRecordType (P.ndn.fullName d) = .genesisRecord →
        record.recordPointers = []) ∧
      ∃ marked names mid, Added P amb record endorseVerified (P.ndn.fullName d) s s'
        marked names mid := by
  have hname : endorseVerified = true → RecordName.check (P.ndn.fullName d) = .ok () := by
    rintro rfl
    cases hc : RecordName.check (P.ndn.fullName d) with
    | ok _ => rfl
    | error e =>
        rw [addToTailingRecord_throws hd hfresh hc] at hadd
        cases hadd
  have hr := hready hname
  obtain ⟨s₁, marked, names, mid, hrun, hadded⟩ :=
    addToTailingRecord_spec amb hs.walkable hs.named hr
  rw [hrun] at hadd
  cases hadd
  exact ⟨hr, fun he hgen => htype ((hr.named.type_eq (hname he)).trans hgen),
    marked, names, mid, hadded⟩

/-- An entry of the sync stack that is resolved is inserted. -/
theorem LedgerHeld.inserted_stack (hs : LedgerHeld P s) {it : Record × Int}
    (hit : it ∈ s.syncStack) (hready : readyToAdd P it.1 s = .ok true) {endorseVerified : Bool}
    (hadd : addToTailingRecord P amb it.1 endorseVerified s = (s', .ok ())) :
    ∃ n marked names mid, Inserted P amb it.1 endorseVerified n s s' marked names mid ∧
      it.1.getRecordName P.ndn = n := by
  obtain ⟨n, hn, hfresh, hstored⟩ := hs.stack.waiting it hit
  obtain ⟨d, hd, rfl⟩ := hn.exists_data
  obtain ⟨hr, hgen, marked, names, mid, h⟩ := added_of_ok hs.tail.sound hd hfresh
    (fun hname => (hs.ready_stack hit hready hn hname).1)
    (fun htype => absurd htype (hs.stack.type_ne it hit)) hadd
  exact ⟨_, marked, names, mid, ⟨h, hr, hstored,
    fun p hp => (hasRecord_held (readyToAdd_pointers hready p hp)).1, hgen⟩, hn.getRecordName⟩

/-- A new record is inserted, unless it is a tailing record. -/
theorem LedgerHeld.inserted_built (hs : LedgerHeld P s) {record : Record} {data : Data}
    (hbuilt : Built P s record data)
    (hnew : s.tailRecords[P.ndn.fullName data]? = none → Unknown P s (P.ndn.fullName data))
    (hadd : addToTailingRecord P amb record true s = (s', .ok ())) :
    s' = s ∨ ∃ marked names mid, Unknown P s (P.ndn.fullName data) ∧
      Inserted P amb record true (P.ndn.fullName data) s s' marked names mid := by
  cases hfresh : s.tailRecords[P.ndn.fullName data]? with
  | some t =>
      rw [addToTailingRecord_of_tail hbuilt.data_eq hfresh] at hadd
      cases hadd
      exact Or.inl rfl
  | none =>
      right
      obtain ⟨hr, hgen, marked, names, mid, h⟩ := added_of_ok hs.tail.sound hbuilt.data_eq hfresh
        (fun hname => hs.ready_built hbuilt hfresh (hnew hfresh).1 (hname rfl))
        (fun htype => absurd htype hbuilt.type_ne) hadd
      refine ⟨marked, names, mid, hnew hfresh, h, hr, (hnew hfresh).1, fun p hp => ?_, hgen⟩
      obtain ⟨u, hu, _⟩ := hbuilt.pointer p hp
      exact Or.inl ⟨u, hu⟩

/-! ## Every move keeps the invariant -/

/-- The interlock policy reads the names of the pointers. -/
theorem checkInterlock_ok {producerID : Name} {pointers : List Name}
    (h : checkInterlock producerID pointers = .ok true) :
    ∀ p ∈ pointers, RecordName.check p = .ok () ∧
      RecordName.getProducerPrefix p ≠ producerID := by
  induction pointers with
  | nil => intro p hp; cases hp
  | cons q pointers ih =>
      simp only [checkInterlock, bind, Except.bind] at h
      cases hq : RecordName.ofName q with
      | error e => rw [hq] at h; cases h
      | ok preceding =>
          rw [hq] at h
          have hname := RecordName.ofName_eq_ok.1 hq
          simp only [hname] at h
          split_ifs at h with hprod
          · cases h
          · intro p hp
            rcases List.mem_cons.1 hp with rfl | hp
            · exact ⟨RecordName.check_of_ofName hq, hprod⟩
            · exact ih h p hp

/-- What the syntax check of a packet ensures of its record. -/
theorem checkSyntaxValidityOfRecord_ok {data : Data} {record : Record}
    (hdec : Record.ofData P.ndn data = .ok record)
    (h : checkSyntaxValidityOfRecord P amb data s = .ok true) :
    checkSyntaxOfRecord P amb record data s = .ok true := by
  unfold checkSyntaxValidityOfRecord parseRecord at h
  simp only [hdec, bind, Except.bind, pure, Except.pure] at h
  cases hcount : record.checkPointerCount P.config.precedingRecordNum with
  | error e => rw [hcount] at h; cases h
  | ok _ =>
      rw [hcount] at h
      cases hsyn : checkSyntaxOfRecord P amb record data s with
      | error f => simp only [hsyn] at h; cases h
      | ok good =>
          simp only [hsyn] at h
          cases hcheck : amb.onRecordAppRetrievalCheck with
          | none =>
              rw [hcheck] at h
              exact h
          | some check =>
              simp only [hcheck, Except.ok.injEq, Bool.and_eq_true] at h
              rw [h.1]

/-- A packet that passes the syntax check is a record. -/
theorem checkSyntaxValidityOfRecord_decoded {data : Data}
    (h : checkSyntaxValidityOfRecord P amb data s = .ok true) :
    ∃ record, Record.ofData P.ndn data = .ok record := by
  cases hdec : Record.ofData P.ndn data with
  | ok record => exact ⟨record, rfl⟩
  | error e =>
      unfold checkSyntaxValidityOfRecord parseRecord at h
      simp [hdec, bind, Except.bind] at h

/-- What the five steps of the check ensure. -/
theorem checkSyntaxOfRecord_ok {data : Data} {record : Record}
    (h : checkSyntaxOfRecord P amb record data s = .ok true) :
    ∃ producerID, record.getProducerPrefix = .ok producerID ∧
      P.certManager.verifySignature s.certManager data = .ok true ∧
      checkInterlock producerID record.recordPointers = .ok true ∧
      (record.type = .certificateRecord ∨ record.type = .revocationRecord →
        P.certManager.verifyRecordFormat s.certManager record = .ok true) := by
  simp only [checkSyntaxOfRecord, bind, Except.bind, pure, Except.pure] at h
  cases hprod : record.getProducerPrefix with
  | error f => rw [hprod] at h; cases h
  | ok producerID =>
      simp only [hprod] at h
      rcases hsig : P.certManager.verifySignature s.certManager data with e | _ | _
      · simp only [hsig, Except.mapError] at h; cases h
      · simp only [hsig, Except.mapError] at h; cases h
      · simp only [hsig, Except.mapError, Bool.not_true, Bool.false_eq_true, if_false] at h
        cases htime : record.getGenerationTimestamp with
        | error f => rw [htime] at h; cases h
        | ok tp =>
            simp only [htime] at h
            by_cases hlate : amb.now + P.config.clockSkewTolerance < tp
            · rw [if_pos hlate] at h; cases h
            · rw [if_neg hlate] at h
              rcases hlock : checkInterlock producerID record.recordPointers with e | _ | _
              · simp only [hlock] at h; cases h
              · simp only [hlock] at h; cases h
              · refine ⟨producerID, rfl, rfl, hlock, fun htype => ?_⟩
                simp only [hlock, Bool.not_true, Bool.false_eq_true, if_false, if_pos htype] at h
                cases hformat : P.certManager.verifyRecordFormat s.certManager record with
                | error e => rw [hformat] at h; cases h
                | ok good =>
                    simp only [hformat, Except.ok.injEq] at h
                    rw [h]

/-- The pointers of a record that passes the check are record names of other producers. -/
theorem pointers_of_checked {data : Data} {record : Record}
    (hdec : Record.ofData P.ndn data = .ok record)
    (h : checkSyntaxValidityOfRecord P amb data s = .ok true) :
    ∀ p ∈ record.recordPointers, RecordName.check p = .ok () := by
  obtain ⟨_, _, _, hlock, _⟩ := checkSyntaxOfRecord_ok (checkSyntaxValidityOfRecord_ok hdec h)
  exact fun p hp => (checkInterlock_ok hlock p hp).1

/-- A received record that is neither seen nor waiting waits with the others. -/
theorem StackInv.push (hs : StackInv P s) (now : Int) {data : Data} {record : Record}
    (hdec : Record.ofData P.ndn data = .ok record) (htype : record.type ≠ .genesisRecord)
    (hunseen : s.seenRecord P (P.ndn.fullName data) = false)
    (hunstacked : ∀ it ∈ s.syncStack, it.1.getRecordName P.ndn ≠ P.ndn.fullName data)
    (hcheck : checkSyntaxValidityOfRecord P amb data s = .ok true) :
    StackInv P (s.withStack (s.syncStack ++ [(record, now)])) := by
  refine ⟨fun it hit => ?_, fun it hit => ?_, fun it hit => ?_, ?_⟩
  · rcases List.mem_append.1 hit with hit | hit
    · exact hs.waiting it hit
    · rw [List.mem_singleton.1 hit]
      exact ⟨_, ⟨data, rfl, hdec⟩, seenRecord_eq_false.1 hunseen⟩
  · rcases List.mem_append.1 hit with hit | hit
    · exact hs.pointerName it hit
    · rw [List.mem_singleton.1 hit]
      exact pointers_of_checked hdec hcheck
  · rcases List.mem_append.1 hit with hit | hit
    · exact hs.type_ne it hit
    · rw [List.mem_singleton.1 hit]
      exact htype
  · simp only [withStack_syncStack, List.map_append, List.map_cons, List.map_nil]
    refine List.nodup_append.2 ⟨hs.nodup, List.nodup_singleton _, ?_⟩
    intro m hm m' hm'
    obtain ⟨it, hit, rfl⟩ := List.mem_map.1 hm
    rw [List.mem_singleton.1 hm', Record.getRecordName_of_ofData hdec]
    exact hunstacked it hit

/-- Where records have no preceding records, it has no pointers. -/
theorem pointers_eq_nil_of_checked {data : Data} {record : Record}
    (hnum : P.config.precedingRecordNum = 0) (hdec : Record.ofData P.ndn data = .ok record)
    (h : checkSyntaxValidityOfRecord P amb data s = .ok true) : record.recordPointers = [] := by
  unfold checkSyntaxValidityOfRecord parseRecord at h
  simp only [hdec, bind, Except.bind, Record.checkPointerCount, hnum] at h
  by_cases hlen : record.recordPointers.length = ofInt (toInt 0)
  · exact List.length_eq_zero_iff.1 hlen
  · simp only [ne_eq, hlen, not_false_eq_true, if_true, Except.ok.injEq,
      Bool.false_eq_true] at h

/-- What was neither in the tail nor stored stays so, but for the inserted record. -/
theorem Inserted.stays_unseen {record : Record} {endorseVerified : Bool} {n : Name}
    {marked : Finset Name} {names : List Name} {mid : TailMap}
    (h : Inserted P amb record endorseVerified n s s' marked names mid)
    (hput : ∀ m, amb.putOk m = true) {m : Name} (hne : n ≠ m)
    (ht : s.tailRecords[m]? = none) (hb : s.backend.getRecord P.ndn m = none) :
    s'.tailRecords[m]? = none ∧ s'.backend.getRecord P.ndn m = none := by
  have hw : walked amb record endorseVerified n s.tailRecords.lookup marked m = none := by
    rw [Added.walked_of_ne hne, ht]; rfl
  constructor
  · cases ht' : s'.tailRecords[m]? with
    | none => rfl
    | some t =>
        rw [h.walked_of_tail ht'] at hw
        cases hw
  · refine (h.backend_of_not_crossing hput fun t _ htw => ?_).trans hb
    rw [hw] at htw
    cases htw

/-- Two ledgers with the same records, whatever waits and whatever was sent. -/
structure SameRecords (s s' : LedgerImpl σ) : Prop where
  tailRecords : s'.tailRecords = s.tailRecords
  backend : s'.backend = s.backend
  insertions : s'.insertions = s.insertions
  confirmations : s'.confirmations = s.confirmations
  calls : s'.calls = s.calls

theorem sameRecords_emit (s : LedgerImpl σ) {e : Event} (he : e.IsQuiet) :
    SameRecords s (s.emit e) :=
  ⟨rfl, rfl, by simp [he.1], by simp [he.2], he.addTo s.calls⟩

/-- What is sent does not matter. -/
theorem LedgerInv.emit (hs : LedgerInv P s) (e : Event) : LedgerInv P (s.emit e) :=
  ⟨hs.tail.congr rfl rfl, ⟨hs.stack.waiting, hs.stack.pointerName, hs.stack.type_ne,
    hs.stack.nodup⟩⟩

section Step

variable (hpos : 1 ≤ P.config.confirmWeight) (hsmall : P.config.SmallWeights)
  (hput : ∀ m, amb.putOk m = true)
include hpos hsmall hput

theorem Inserted.tailInv {record : Record} {endorseVerified : Bool} {n : Name}
    {marked : Finset Name} {names : List Name} {mid : TailMap}
    (h : Inserted P amb record endorseVerified n s s' marked names mid) (hs : TailInv P s) :
    TailInv P s' :=
  hs.added hpos hput hsmall h.ready h.genesis h.held h.toAdded

omit hpos hsmall in
/-- The part of the sync stack that stays waits on. -/
theorem Inserted.stackInv {record : Record} {endorseVerified : Bool} {n : Name}
    {marked : Finset Name} {names : List Name} {mid : TailMap}
    (h : Inserted P amb record endorseVerified n s s' marked names mid) (hs : StackInv P s)
    {stack : List (Record × Int)} (hsub : stack.Sublist s.syncStack)
    (hother : ∀ it ∈ stack, it.1.getRecordName P.ndn ≠ n) :
    StackInv P (s'.withStack stack) := by
  refine ⟨?_, fun it hit => hs.pointerName it (hsub.subset hit),
    fun it hit => hs.type_ne it (hsub.subset hit), hs.nodup.sublist (hsub.map _)⟩
  intro it hit
  obtain ⟨m, hm, ht, hb⟩ := hs.waiting it (hsub.subset hit)
  exact ⟨m, hm, h.stays_unseen hput (fun heq => hother it hit (heq ▸ hm.getRecordName)) ht hb⟩

theorem LedgerInv.receiveMove (hs : LedgerInv P s) (h : ReceiveMove P amb received s s') :
    LedgerInv P s' := by
  cases h with
  | emit quiet => exact hs.emit _
  | @push data record receive decoded type_ne unseen unstacked checked =>
      exact ⟨hs.tail.congr rfl rfl,
        hs.stack.push amb.now decoded type_ne unseen unstacked checked⟩
  | @drop before rest it stack late =>
      refine ⟨hs.tail.congr rfl rfl, hs.stack.sublist ?_⟩
      rw [stack]
      exact (List.Sublist.refl before).append (List.sublist_cons_self it rest)
  | @resolve s' before rest it data endorseVerified stack ready data_eq endorse added =>
      have hit : it ∈ s.syncStack := by rw [stack]; simp
      obtain ⟨n, marked, names, mid, h, hn⟩ := hs.ledgerHeld.inserted_stack hit ready added
      have hsub : (before ++ rest).Sublist s.syncStack := by
        rw [stack]
        exact (List.Sublist.refl before).append (List.sublist_cons_self it rest)
      refine ⟨(h.tailInv hpos hsmall hput hs.tail).congr rfl rfl,
        h.stackInv hput hs.stack hsub ?_⟩
      exact fun it' hit' heq => hs.stack.name_ne stack hit' (heq.trans hn.symm)

/-- **Every move keeps the invariant.** -/
theorem LedgerInv.move (hs : LedgerInv P s) (h : Move P amb s s') : LedgerInv P s' := by
  cases h with
  | receive h => exact hs.receiveMove hpos hsmall hput h
  | create built new added =>
      rcases hs.ledgerHeld.inserted_built built new added with
        rfl | ⟨marked, names, mid, hunknown, h⟩
      · exact hs
      · have hstack : s'.withStack s.syncStack = s' := by
          rw [← h.syncStack, withStack_self]
        refine ⟨h.tailInv hpos hsmall hput hs.tail, ?_⟩
        rw [← hstack]
        exact h.stackInv hput hs.stack (List.Sublist.refl _) hunknown.2

omit hpos hsmall hput in
/-- A move changes no records, or it inserts one. -/
theorem LedgerHeld.receiveMove_cases (hs : LedgerHeld P s) (h : ReceiveMove P amb received s s') :
    SameRecords s s' ∨ ∃ record endorseVerified n s₁ marked names mid,
      Inserted P amb record endorseVerified n s s₁ marked names mid ∧ SameRecords s₁ s' := by
  cases h with
  | emit quiet => exact Or.inl (sameRecords_emit s quiet)
  | push receive decoded type_ne unseen unstacked checked => exact Or.inl ⟨rfl, rfl, rfl, rfl, rfl⟩
  | drop stack late => exact Or.inl ⟨rfl, rfl, rfl, rfl, rfl⟩
  | @resolve s₁ before rest it data endorseVerified stack ready data_eq endorse added =>
      have hit : it ∈ s.syncStack := by rw [stack]; simp
      obtain ⟨n, marked, names, mid, h, _⟩ := hs.inserted_stack hit ready added
      exact Or.inr ⟨_, _, n, s₁, marked, names, mid, h, rfl, rfl, rfl, rfl, rfl⟩

omit hpos hsmall hput in
theorem LedgerHeld.move_cases (hs : LedgerHeld P s) (h : Move P amb s s') :
    SameRecords s s' ∨ ∃ record endorseVerified n s₁ marked names mid,
      Inserted P amb record endorseVerified n s s₁ marked names mid ∧ SameRecords s₁ s' := by
  cases h with
  | receive h => exact hs.receiveMove_cases h
  | create built new added =>
      rcases hs.inserted_built built new added with rfl | ⟨marked, names, mid, _, h⟩
      · exact Or.inl ⟨rfl, rfl, rfl, rfl, rfl⟩
      · exact Or.inr ⟨_, _, _, s', marked, names, mid, h, rfl, rfl, rfl, rfl, rfl⟩

theorem LedgerInv.receiveMoves (hs : LedgerInv P s) (h : ReceiveMoves P amb received s s') :
    LedgerInv P s' := by
  induction h with
  | refl => exact hs
  | tail _ h ih => exact ih.receiveMove hpos hsmall hput h

theorem LedgerInv.moves (hs : LedgerInv P s) (h : Moves P amb s s') : LedgerInv P s' := by
  induction h with
  | refl => exact hs
  | tail _ h ih => exact ih.move hpos hsmall hput h

/-- What changes of records keep holds after any moves. -/
theorem LedgerInv.moves_induction (hs : LedgerInv P s) {I : LedgerImpl σ → Prop} (h₀ : I s)
    (hsame : ∀ a b, I a → SameRecords a b → I b)
    (hins : ∀ record endorseVerified n a b marked names mid, LedgerInv P a → I a →
      Inserted P amb record endorseVerified n a b marked names mid → I b)
    (h : Moves P amb s s') : I s' := by
  induction h with
  | refl => exact h₀
  | @tail a b hmoves hmove ih =>
      have ha := hs.moves hpos hsmall hput hmoves
      rcases ha.ledgerHeld.move_cases hmove with hab | ⟨_, _, _, c, _, _, _, hac, hcb⟩
      · exact hsame a b ih hab
      · exact hsame c b (hins _ _ _ a c _ _ _ ha ih hac) hcb

end Step

end LedgerImpl

end DLedger
