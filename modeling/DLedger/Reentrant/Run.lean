import DLedger.Ledger.Expiry
import DLedger.Reentrant.Invariant

set_option autoImplicit false

/-! # Runs with careful callbacks

A callback is careful when what it appends does no harm to the loops under way. Then every step of
the machine keeps the invariant, and no step reads an entry through a reference that has become
invalid.
-/

namespace DLedger

open Tlv (Bytes Block)

namespace LedgerImpl

variable {σ : Type} {P : Peer σ} {amb : Ambient} {s s' : LedgerImpl σ} {record : Record}
  {endorseVerified : Bool} {n : Name} {current pending : List Name}

/-! ## Records that are ready -/

/-- A record that is neither in the tail nor stored is pointed to by no tailing record. -/
theorem Records.unpointed (h : Records P s current pending) (hn : s.tailRecords[n]? = none)
    (hb : s.backend.getRecord P.ndn n = none) (x : Name) (t : TailingRecordState)
    (ht : s.tailRecords[x]? = some t) : n ∉ t.record.recordPointers := by
  intro hp
  rcases h.held x t ht n hp with ⟨u, hu⟩ | ⟨d, hd⟩
  · rw [hn] at hu
    cases hu
  · rw [hb] at hd
    cases hd

theorem Records.ready_built (h : Records P s current pending) {data : Data}
    (hbuilt : Built P s record data) (hfresh : s.tailRecords[P.ndn.fullName data]? = none)
    (hback : s.backend.getRecord P.ndn (P.ndn.fullName data) = none)
    (hname : RecordName.check (P.ndn.fullName data) = .ok ()) :
    InsertReady P s record true (P.ndn.fullName data) := by
  refine ⟨⟨hbuilt.named hname, fun _ => hname, hfresh, ?_, fun _ => ?_,
    h.unpointed hfresh hback⟩, hback, ?_, fun _ hgenesis => ?_⟩
  · intro p hp t ht
    obtain ⟨u, hu, hv, _⟩ := hbuilt.pointer p hp
    rw [hu] at ht
    cases ht
    exact hv
  · intro p hp
    obtain ⟨u, hu, hv, _⟩ := hbuilt.pointer p hp
    exact h.sound.name p u hu (h.sound.flags p u hu ▸ hv)
  · intro p hp
    obtain ⟨u, hu, _⟩ := hbuilt.pointer p hp
    exact Or.inl ⟨u, hu⟩
  · exact absurd (((hbuilt.named hname).type_eq hname).trans hgenesis) hbuilt.type_ne

theorem Records.ready_stack (h : Records P s current pending) (hs : StackInv P s)
    {it : Record × Int} (hit : it ∈ s.syncStack) (hready : readyToAdd P it.1 s = .ok true)
    (hn : Record.Named P.ndn n it.1)
    (hname : endorseVerified = true → RecordName.check n = .ok ()) :
    InsertReady P s it.1 endorseVerified n := by
  obtain ⟨m, hm, hfresh, hback⟩ := hs.waiting it hit
  have hmn : m = n := by rw [← hm.getRecordName, hn.getRecordName]
  subst hmn
  have hpointers := readyToAdd_pointers hready
  refine ⟨⟨hn, hname, hfresh, fun p hp => (hasRecord_held (hpointers p hp)).2,
    fun _ => hs.pointerName it hit, h.unpointed hfresh hback⟩, hback,
    fun p hp => (hasRecord_held (hpointers p hp)).1, fun he hgenesis => ?_⟩
  exact absurd ((hn.type_eq (hname he)).trans hgenesis) (hs.type_ne it hit)

/-- Where the name of an endorsed record is not a record name, its walk throws. -/
theorem enterTailing_throws {d : Data} (hd : record.data = some d)
    (hfresh : s.tailRecords[P.ndn.fullName d]? = none) {e : Exn}
    (he : RecordName.check (P.ndn.fullName d) = .error e) :
    LedgerImpl.enterTailing P amb record true s
      = (insertRecord P amb record true s, .error (.thrown e)) := by
  have hname : record.getRecordName P.ndn = P.ndn.fullName d := by
    rw [Record.getRecordName, hd]
  have hcontains : s.tailRecords.contains (P.ndn.fullName d) = false := by
    rw [Std.TreeMap.contains_eq_isSome_getElem?, hfresh]
    rfl
  unfold LedgerImpl.enterTailing
  simp only [hname, hcontains, Bool.false_eq_true, if_false, walkStart, if_true, weightWalk,
    RecordName.ofName_of_check_error he]

/-- Where `enterTailing` comes to the loop, the record was ready. -/
theorem Records.enterTailing_cases (h : Records P s current pending) {d : Data}
    (hd : record.data = some d)
    (hready : s.tailRecords[P.ndn.fullName d]? = none →
      (endorseVerified = true → RecordName.check (P.ndn.fullName d) = .ok ()) →
        InsertReady P s record endorseVerified (P.ndn.fullName d))
    {out : Option (List Name)}
    (hrun : LedgerImpl.enterTailing P amb record endorseVerified s = (s', .ok out)) :
    (out = none ∧ s' = s) ∨ ∃ names marked, out = some names ∧
      InsertReady P s record endorseVerified (P.ndn.fullName d) ∧
      Entered P amb record endorseVerified (P.ndn.fullName d) s s' marked names := by
  cases hfresh : s.tailRecords[P.ndn.fullName d]? with
  | some t =>
      left
      have hcontains : s.tailRecords.contains (record.getRecordName P.ndn) = true := by
        rw [Record.getRecordName, hd, Std.TreeMap.contains_eq_isSome_getElem?]
        exact Option.isSome_iff_exists.2 ⟨t, hfresh⟩
      rw [LedgerImpl.enterTailing, if_pos hcontains] at hrun
      cases hrun
      exact ⟨rfl, rfl⟩
  | none =>
      right
      have hname : endorseVerified = true → RecordName.check (P.ndn.fullName d) = .ok () := by
        rintro rfl
        cases hc : RecordName.check (P.ndn.fullName d) with
        | ok _ => rfl
        | error e =>
            rw [enterTailing_throws hd hfresh hc] at hrun
            cases hrun
      have hr := hready hfresh hname
      obtain ⟨s₁, marked, names, hrun', hentered⟩ := hr.toAddReady.enterTailing amb h.sound
      rw [hrun'] at hrun
      cases hrun
      exact ⟨names, marked, rfl, hr, hentered⟩

end LedgerImpl

namespace Machine

open LedgerImpl

variable {σ : Type} {P : Peer σ} {amb : Ambient} {m m' : Machine σ} {s s' : LedgerImpl σ}
  {record : Record} {l : Loop} {below : List Loop} {scan : Option Scan}

/-! ## Careful callbacks -/

/-- An appended record reaches no record of the loops under way in a way that does harm, and its
call evicts none whose turn is to come. -/
def Careful (P : Peer σ) (m : Machine σ) : Action → Prop
  | .call (.createRecord amb record) =>
      ∀ record' data, buildRecord P amb record m.ledger = (record', .ok (.ok data)) →
        (∀ x, Marks (insertedLookup m.ledger.tailRecords.lookup (P.ndn.fullName data)
              (newEntry amb { record' with data := some data } true))
            (RecordName.getProducerPrefix (P.ndn.fullName data)) (P.ndn.fullName data) x →
          Harmless P m.current m.pending m.ledger x) ∧
        ∀ x ∈ m.pending, ¬ Evicted m.ledger.tailRecords.lookup P.config amb x
  | _ => True

theorem idle_iff : m.idle = true ↔ m.loops = [] ∧ m.scan = none := by
  simp [idle]

/-- What waits is in the sync stack. -/
theorem LoopsInv.mem_syncStack (h : LoopsInv P m) {it : Record × Int} (hit : it ∈ m.waiting) :
    it ∈ m.ledger.syncStack := by
  unfold waiting at hit
  split at hit
  · next q _ hscan =>
      rw [(h.scan q hscan).2]
      rcases List.mem_append.1 hit with hit | hit
      · exact List.mem_append_left _ hit
      · exact List.mem_append_right _ (List.mem_of_mem_tail hit)
  · exact hit

variable (amb) in
/-- A loop that a call of the application starts leaves the sync stack alone. -/
theorem waiting_push (hwhere : m.idle = true ∨ m.inCallback = true)
    (hstack : s.syncStack = m.ledger.syncStack) (creates : Bool) (names : List Name) :
    (m.push amb creates s names).waiting = m.waiting := by
  rcases hwhere with hidle | hcallback
  · obtain ⟨hloops, hscan⟩ := idle_iff.1 hidle
    simp only [waiting, push, hloops, hscan]
    exact hstack
  · cases hloops : m.loops with
    | nil =>
        rw [inCallback, hloops] at hcallback
        cases hcallback
    | cons l below =>
        cases hscan : m.scan with
        | none =>
            simp only [waiting, push, hloops, hscan]
            exact hstack
        | some q => simp only [waiting, push, hloops, hscan]

/-! ## Calls -/

theorem Inv.create (h : Inv P m) (hpos : 1 ≤ P.config.confirmWeight)
    (hwhere : m.idle = true ∨ m.inCallback = true)
    (hadmits : Admissible P m.ledger (.createRecord amb record))
    (hcareful : Careful P m (.call (.createRecord amb record)))
    (hrun : m.create P amb record = .ok m') : Inv P m' := by
  obtain ⟨hput, hfresh, hnew⟩ := hadmits
  unfold Machine.create at hrun
  -- a call that signs nothing leaves the machine where it is
  rcases hbuild : buildRecord P amb record m.ledger with ⟨record', f | code | data⟩
  · rw [hbuild] at hrun
    cases hrun
  · rw [hbuild] at hrun
    cases hrun
    exact h
  simp only [hbuild] at hrun
  have hbuilt := buildRecord_built hfresh hbuild
  obtain ⟨hharm, hkept⟩ := hcareful record' data hbuild
  rcases henter : enterTailing P amb { record' with data := some data } true m.ledger with
    ⟨s', f | out⟩
  · rw [henter] at hrun
    cases hrun
  rw [henter] at hrun
  rcases h.records.enterTailing_cases hbuilt.data_eq
    (fun hnone hname => h.records.ready_built hbuilt hnone (hnew _ _ hbuild hnone).1
      (hname rfl)) henter with ⟨rfl, rfl⟩ | ⟨names, marked, rfl, hr, hentered⟩
  · cases hrun
    obtain ⟨events, hs⟩ := sendSyncInterest_sends P amb m.ledger
    exact h.sends hs
  · cases hrun
    have hwaiting := waiting_push amb hwhere hentered.syncStack true names
    have hunknown := hnew _ _ hbuild hr.fresh
    refine h.push hpos (hwhere.imp_left fun hidle => (idle_iff.1 hidle).1) hr hentered hput
      (fun x hx => ?_) hkept ?_ ?_
    · obtain ⟨_, _, _, hadded⟩ := hentered.added
      exact hharm x ((hadded.mem_marked x).1 hx).2
    · rw [hwaiting]
    · rw [hwaiting]
      exact fun it hit => hunknown.2 it (h.mem_syncStack hit)

/-- A received packet is waiting then, and a pass over the sync stack may begin. -/
theorem Inv.receive (h : Inv P m) (hidle : m.idle = true) (hput : Ambient.Writes amb) {data : Data}
    (hrun : m.receive P amb data = .ok m') : Inv P m' := by
  obtain ⟨s, loops, scan⟩ := m
  obtain ⟨rfl, rfl⟩ := idle_iff.1 hidle
  unfold Machine.receive at hrun
  simp only at hrun
  by_cases hseen : s.seenRecord P (P.ndn.fullName data) = true
  · rw [if_pos hseen] at hrun
    cases hrun
    exact h
  rw [if_neg hseen] at hrun
  by_cases hstacked : (s.syncStack.any fun stackRecord =>
      stackRecord.1.getRecordName P.ndn == P.ndn.fullName data) = true
  · rw [if_pos hstacked] at hrun
    cases hrun
    exact h
  rw [if_neg hstacked] at hrun
  rw [Bool.not_eq_true] at hseen
  have hunstacked := unstacked_of_any hstacked
  rcases receiveRecord_cases P amb data s with heq | ⟨r, hdec, htype, hcheck⟩
  · rw [heq] at hrun
    cases hrun
    exact h
  -- the record waits from now on; whether a pass begins does not matter to the invariant
  · have hinv : Inv P ⟨received P amb.now r s, [], none⟩ := by
      have hstack : StackInv P s := h.stack
      have hpush := hstack.push amb.now hdec htype hseen hunstacked hcheck
      have hconf : (received P amb.now r s).confirmations = s.confirmations := by
        simp only [received, confirmations, List.filterMap_append]
        rw [List.filterMap_eq_nil_iff.2, List.nil_append]
        intro e he
        rw [List.mem_reverse, List.mem_map] at he
        obtain ⟨_, _, rfl⟩ := he
        rfl
      -- no loop is under way, so what the invariant says of loops is empty
      refine ⟨⟨h.records.congr (fun _ => rfl) rfl hconf, ?_, ?_, List.Pairwise.nil, ?_⟩, ?_⟩
      · intro l hl
        cases hl
      · intro l hl
        cases hl
      · intro q hq
        cases hq
      · exact ⟨hpush.waiting, hpush.pointerName, hpush.type_ne, hpush.nodup⟩
    rw [receiveRecord_eq hdec htype hcheck] at hrun
    cases hready : ancestorsSeen P r s
    · rw [hready] at hrun
      cases hrun
      exact hinv
    · rw [hready] at hrun
      cases hrun
      exact ⟨⟨hinv.records, hinv.loops, hinv.nested, hinv.kept, fun q hq => by
        cases hq
        exact ⟨hput, rfl⟩⟩, hinv.stack⟩

/-! ## The loop over the sync stack -/

/-- **The loop over the sync stack goes on**: what it adds is ready and waits no more. -/
theorem Inv.scanNext {q : Scan} (h : Inv P ⟨s, [], some q⟩) (hpos : 1 ≤ P.config.confirmWeight)
    (hrun : Machine.scanNext P q ⟨s, [], some q⟩ = .ok m') : Inv P m' := by
  obtain ⟨hwrites, hscan⟩ := h.scan q rfl
  have hstack : StackInv P s := h.stack
  -- where no loop is under way, an invariant is that of the sync stack
  have hinv : ∀ q' : Scan, Ambient.Writes q'.amb → s.syncStack = q'.before ++ q'.rest →
      Inv P ⟨s, [], some q'⟩ := by
    intro q' hq' hscan'
    exact ⟨⟨h.records, h.loops, h.nested, h.kept, fun q'' hq'' => by
      cases hq''
      exact ⟨hq', hscan'⟩⟩, h.stack⟩
  unfold Machine.scanNext at hrun
  dsimp only at hrun hscan
  cases hrest : q.rest with
  | nil =>
      simp only [hrest] at hrun
      split_ifs at hrun
      · cases hrun
        exact ⟨⟨h.records, h.loops, h.nested, h.kept, fun q' hq' => by cases hq'⟩, h.stack⟩
      · cases hrun
        exact hinv ⟨q.amb, [], s.syncStack, s.syncStack.length⟩ hwrites rfl
  | cons it rest =>
      simp only [hrest] at hrun
      rw [hrest] at hscan
      have hit : it ∈ s.syncStack := by
        rw [hscan]
        simp
      have hsub : (q.before ++ rest).Sublist s.syncStack := by
        rw [hscan]
        exact (List.Sublist.refl q.before).append (List.sublist_cons_self it rest)
      have hshort : StackInv P (s.withStack (q.before ++ rest)) := hstack.sublist hsub
      -- the entry faults, waits on or times out, or it is added
      rcases hready : readyToAdd P it.1 s with f | _ | _
      · simp only [hready] at hrun
        cases hrun
      · simp only [hready] at hrun
        split_ifs at hrun
        · cases hrun
          refine ⟨⟨h.records.congr (fun _ => rfl) rfl rfl, ?_, h.nested, List.Pairwise.nil, ?_⟩,
            hshort⟩
          · intro l hl
            cases hl
          · intro q' hq'
            cases hq'
            exact ⟨hwrites, rfl⟩
        · cases hrun
          refine hinv { q with before := q.before ++ [it], rest := rest } hwrites ?_
          rw [hscan, List.append_assoc]
          rfl
      simp only [hready] at hrun
      obtain ⟨n, hn, hfresh, hstored⟩ := hstack.waiting it hit
      obtain ⟨d, hd, rfl⟩ := hn.exists_data
      simp only [hd] at hrun
      rcases hcheck : checkEndorseValidityOfRecord P q.amb d s with f | endorseVerified
      · simp only [hcheck] at hrun
        cases hrun
      simp only [hcheck] at hrun
      rcases henter : enterTailing P q.amb it.1 endorseVerified s with ⟨s', f | out⟩
      · simp only [henter] at hrun
        cases hrun
      simp only [henter] at hrun
      -- added at once, as a tailing record of this name is there, or through a loop of its own
      rcases h.records.enterTailing_cases hd
        (fun _ hname => h.records.ready_stack hstack hit hready hn hname) henter
        with ⟨rfl, rfl⟩ | ⟨names, marked, rfl, hr, hentered⟩
      · cases hrun
        refine h.toLoopsInv.erased (l := ⟨q.amb, [], none, false, false⟩) ?_
        simp only [waiting, hrest, List.tail_cons]
        exact hshort
      · cases hrun
        have hwaiting : ((⟨s, [], some q⟩ : Machine σ).push q.amb false s' names).waiting
            = q.before ++ rest := by
          show q.before ++ q.rest.tail = q.before ++ rest
          rw [hrest, List.tail_cons]
        refine h.push hpos (Or.inl rfl) hr hentered hwrites (fun x _ t _ => ⟨?_, ?_⟩) ?_ ?_ ?_
        · intro hx
          cases hx
        · intro hx
          cases hx
        · intro x hx
          cases hx
        · rw [hwaiting]
          exact hsub
        · rw [hwaiting]
          exact fun it' hit' heq => hstack.name_ne hscan hit' (heq.trans hn.getRecordName.symm)

/-! ## Steps -/

theorem Inv.enterVisit (h : Inv P ⟨s, l :: below, scan⟩) {updatedRecord : Name} {rest : List Name}
    (hvisit : l.visit = none) (hupdated : l.updatedRecords = updatedRecord :: rest) :
    ∃ m', Machine.enterVisit P l below updatedRecord rest ⟨s, l :: below, scan⟩ = .ok m' ∧
      Inv P m' := by
  have hl := h.loops l List.mem_cons_self
  have hold : Records P s (⟨s, below, scan⟩ : Machine σ).current
      (updatedRecord :: (rest ++ (⟨s, below, scan⟩ : Machine σ).pending)) := by
    simpa [current, pending, hvisit, hupdated] using h.records
  obtain ⟨t, s', callback, ht, hrun, hcallback, hs⟩ := hold.visitUpdated hl.writes
  refine ⟨_, ?_, h.visited hvisit hupdated ht hs hcallback⟩
  unfold Machine.enterVisit
  simp only [hl.flag, hrun]

/-- A call that adds nothing only sends. -/
theorem Inv.invoke_sends (h : Inv P m) {c : Call} (hc : ¬ c.Adds)
    (hs : ∃ events, OnlySends P m.ledger (call P c m.ledger).1 events)
    (hrun : m.invoke P c = .ok m') : Inv P m' := by
  obtain ⟨events, hs⟩ := hs
  cases c with
  | createRecord amb record => exact absurd trivial hc
  | onFetchedRecord amb data => exact absurd trivial hc
  | onLedgerSyncRequest amb interest | onRecordRequest amb interest | sendSyncInterest amb =>
      simp only [invoke] at hrun
      split_ifs at hrun
      · split at hrun
        · cases hrun
        · next s' hcall =>
            cases hrun
            rw [hcall] at hs
            exact h.sends hs
      · cases hrun
        exact h

/-- **Every step keeps the invariant.** -/
theorem Inv.advance (h : Inv P m) (hpos : 1 ≤ P.config.confirmWeight)
    (hsmall : P.config.SmallWeights) {a : Action} (hadmits : Admits P m a)
    (hcareful : Careful P m a) (hrun : advance P a m = .ok m') : Inv P m' := by
  cases a with
  | call c =>
      -- only a creation can happen inside of a callback
      simp only [Machine.advance] at hrun
      cases c with
      | createRecord amb record =>
          simp only [invoke] at hrun
          split_ifs at hrun with hwhere
          · rw [Bool.or_eq_true] at hwhere
            exact h.create hpos hwhere hadmits hcareful hrun
          · cases hrun
            exact h
      | onFetchedRecord amb data =>
          simp only [invoke] at hrun
          split_ifs at hrun with hidle
          · exact h.receive hidle hadmits hrun
          · cases hrun
            exact h
      | onLedgerSyncRequest amb interest =>
          exact h.invoke_sends id (onLedgerSyncRequest_sends interest m.ledger) hrun
      | onRecordRequest amb interest =>
          exact h.invoke_sends id (onRecordRequest_sends interest m.ledger) hrun
      | sendSyncInterest amb =>
          exact h.invoke_sends (c := .sendSyncInterest amb) id
            (sendSyncInterest_sends P amb m.ledger) hrun
  | resume =>
      obtain ⟨s, loops, scan⟩ := m
      simp only [Machine.advance, resume] at hrun
      -- the innermost loop goes on first: behind its callback, at its end, or at its next record
      cases loops with
      | nil =>
          cases scan with
          | none =>
              cases hrun
              exact h
          | some q => exact h.scanNext hpos hrun
      | cons l below =>
          simp only at hrun
          cases hvisit : l.visit with
          | some v =>
              obtain ⟨m₁, hrun₁, hinv⟩ := Inv.leaveVisit hsmall hvisit h
              simp only [hvisit, hrun₁] at hrun
              cases hrun
              exact hinv
          | none =>
              cases hupdated : l.updatedRecords with
              | nil =>
                  obtain ⟨m₁, hrun₁, hinv⟩ := Inv.pop hvisit hupdated h
                  simp only [hvisit, hupdated, hrun₁] at hrun
                  cases hrun
                  exact hinv
              | cons updatedRecord rest =>
                  obtain ⟨m₁, hrun₁, hinv⟩ := h.enterVisit hvisit hupdated
                  simp only [hvisit, hupdated, hrun₁] at hrun
                  cases hrun
                  exact hinv

/-! ## What is pending stays -/

theorem pending_erased (m : Machine σ) : m.erased.pending = m.pending := by
  unfold erased
  split <;> rfl

theorem pending_revalidate (tail : TailMap) (loops : List Loop) :
    (loops.map (Loop.revalidate tail)).flatMap Loop.updatedRecords
      = loops.flatMap Loop.updatedRecords := by
  rw [List.flatMap_map]
  rfl

/-- `createRecord` goes into one loop at most. -/
theorem create_loops {record : Record} (hrun : m.create P amb record = .ok m') :
    m'.loops = m.loops ∨ ∃ l, m'.loops = l :: m.loops := by
  unfold Machine.create at hrun
  split at hrun
  · cases hrun
  · cases hrun
    exact Or.inl rfl
  · split at hrun
    · cases hrun
    · cases hrun
      exact Or.inl rfl
    · cases hrun
      exact Or.inr ⟨_, rfl⟩

/-- `onFetchedRecord` leaves the loops as they are. -/
theorem receive_loops {data : Data} (hrun : m.receive P amb data = .ok m') :
    m'.loops = m.loops := by
  unfold Machine.receive at hrun
  dsimp only at hrun
  split_ifs at hrun
  · cases hrun
    rfl
  · cases hrun
    rfl
  · split at hrun <;> cases hrun <;> rfl

/-- No call leaves a loop. -/
theorem invoke_loops {c : Call} (hrun : m.invoke P c = .ok m') :
    m'.loops = m.loops ∨ ∃ l, m'.loops = l :: m.loops := by
  unfold Machine.invoke at hrun
  cases c with
  | createRecord amb record =>
      simp only at hrun
      split_ifs at hrun
      · exact create_loops hrun
      · cases hrun
        exact Or.inl rfl
  | onFetchedRecord amb data =>
      simp only at hrun
      split_ifs at hrun
      · exact Or.inl (receive_loops hrun)
      · cases hrun
        exact Or.inl rfl
  | onLedgerSyncRequest amb interest | onRecordRequest amb interest | sendSyncInterest amb =>
      simp only at hrun
      split_ifs at hrun
      · split at hrun <;> cases hrun
        exact Or.inl rfl
      · cases hrun
        exact Or.inl rfl

/-- **A pending record stays pending until its loop comes to it.** -/
theorem pending_advance {a : Action} (hrun : advance P a m = .ok m') {x : Name}
    (hx : x ∈ m.pending) : x ∈ m'.current ++ m'.pending := by
  rw [List.mem_append]
  cases a with
  | call c =>
      right
      rcases invoke_loops hrun with heq | ⟨l, heq⟩
      · rw [pending, heq]
        exact hx
      · rw [pending, heq, List.flatMap_cons]
        exact List.mem_append_right _ hx
  | resume =>
      obtain ⟨s, loops, scan⟩ := m
      simp only [Machine.advance, resume] at hrun
      cases loops with
      | nil => cases hx
      | cons l below =>
          have hx' : x ∈ l.updatedRecords ∨ x ∈ below.flatMap Loop.updatedRecords := by
            simpa [pending] using hx
          -- only the head of the innermost list moves, from pending to current
          cases hvisit : l.visit with
          | some v =>
              simp only [hvisit, Machine.leaveVisit] at hrun
              split_ifs at hrun
              cases hrun
              right
              rw [pending, List.flatMap_cons, pending_revalidate, List.mem_append]
              exact hx'
          | none =>
              cases hupdated : l.updatedRecords with
              | nil =>
                  simp only [hvisit, hupdated, Machine.pop] at hrun
                  split at hrun
                  · cases hrun
                  · cases hrun
                    right
                    rw [pending_erased, pending, pending_revalidate]
                    rw [hupdated] at hx'
                    exact hx'.resolve_left List.not_mem_nil
              | cons updatedRecord rest =>
                  simp only [hvisit, hupdated, Machine.enterVisit] at hrun
                  split at hrun
                  · cases hrun
                  · cases hrun
                    rw [hupdated, List.mem_cons] at hx'
                    rcases hx' with (rfl | hx') | hx'
                    · exact Or.inl List.mem_cons_self
                    · exact Or.inr (List.mem_append_left _ hx')
                    · exact Or.inr (List.mem_append_right _ hx')

/-- The invariant holds at the start, on an empty database. -/
theorem inv_start (hpos : 1 ≤ P.config.confirmWeight) (hsmall : P.config.SmallWeights)
    {certManager : σ} (h : Reachable P Backend.empty certManager s) : Inv P ⟨s, [], none⟩ := by
  have hinv := h.inv hpos hsmall
  have hst := h.stored hpos hsmall
  refine ⟨⟨⟨hinv.tail.sound, hinv.tail.held, hst.heavy, hst.once, ?_, ?_, ?_, ?_⟩, ?_, ?_,
    List.Pairwise.nil, ?_⟩, hinv.stack⟩
  · intro n t ht hc
    obtain ⟨d, hd, _⟩ := (hinv.tail.sound.named n t ht).exists_data
    exact Or.inl ⟨d, (hinv.tail.confirmed n t ht hc).trans hd⟩
  all_goals
    intro x hx
    cases hx

/-- **The invariant holds at every point** of a run whose callbacks are careful. -/
theorem Reaches.inv (hpos : 1 ≤ P.config.confirmWeight) (hsmall : P.config.SmallWeights)
    {certManager : σ} (h : Reaches P Backend.empty certManager (Careful P) m) : Inv P m := by
  induction h with
  | start writes h => exact inv_start hpos hsmall (Reachable.start writes h)
  | advance _ hadmits hcareful hrun ih => exact ih.advance hpos hsmall hadmits hcareful hrun

end Machine

end DLedger
