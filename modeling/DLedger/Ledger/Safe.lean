import DLedger.Ledger.Move

set_option autoImplicit false

/-! # Calls as sequences of moves

Every call that returns is a sequence of moves, and no call dereferences an empty optional
or a null pointer. Both hold in every state of the invariant.
-/

namespace DLedger

open Tlv (Bytes Block)

namespace LedgerImpl

variable {σ : Type} {P : Peer σ} {amb : Ambient} {received : Data → Prop} {s s' : LedgerImpl σ}

/-! ## Calls that are sequences of moves -/

/-- A call that makes moves if it returns, and that dereferences no empty optional. -/
structure Safe {α : Type} (move : LedgerImpl σ → LedgerImpl σ → Prop) (s : LedgerImpl σ)
    (out : LedgerImpl σ × Except Fault α) : Prop where
  moves : ∀ a, out.2 = .ok a → Relation.ReflTransGen move s out.1
  defined : out.2 ≠ .error .nullDereference

section Safe

variable {move : LedgerImpl σ → LedgerImpl σ → Prop} {α : Type}

theorem Safe.ok {a : α} (h : Relation.ReflTransGen move s s') :
    Safe move s (s', (.ok a : Except Fault α)) :=
  ⟨fun _ _ => h, by simp⟩

theorem Safe.thrown (e : Exn) : Safe move s (s', (.error (.thrown e) : Except Fault α)) :=
  ⟨fun _ h => by simp at h, by simp⟩

/-- A fault that is not a null dereference. -/
theorem Safe.error {f : Fault} (h : f ≠ .nullDereference) :
    Safe move s (s', (.error f : Except Fault α)) :=
  ⟨fun _ h => by simp at h, fun heq => h (Except.error.inj heq)⟩

theorem ReceiveMoves.moves (h : ReceiveMoves P amb received s s') : Moves P amb s s' :=
  Relation.ReflTransGen.mono (fun _ _ hmove => Move.receive hmove) s s' h

theorem Safe.receive {out : LedgerImpl σ × Except Fault α}
    (h : Safe (ReceiveMove P amb received) s out) : Safe (Move P amb) s out :=
  ⟨fun a ha => ReceiveMoves.moves (h.moves a ha), h.defined⟩

end Safe

/-! ## Sending -/

theorem moves_emit (s : LedgerImpl σ) {e : Event} (he : e.IsQuiet) :
    ReceiveMoves P amb received s (s.emit e) :=
  Relation.ReflTransGen.single (ReceiveMove.emit he)

variable (P amb received) in
theorem sendSyncInterest_moves (s : LedgerImpl σ) :
    ReceiveMoves P amb received s (sendSyncInterest amb s).1 := by
  unfold sendSyncInterest
  cases amb.signInterest with
  | error reason => exact Relation.ReflTransGen.refl
  | ok u => exact moves_emit s ⟨rfl, rfl⟩

theorem fetchRecord_moves (s : LedgerImpl σ) (n : Name) :
    ReceiveMoves P amb received s (s.fetchRecord n) :=
  moves_emit s ⟨rfl, rfl⟩

theorem fetchUnseen_moves (names : List Name) (s : LedgerImpl σ) :
    ReceiveMoves P amb received s (fetchUnseen P names s).1 := by
  induction names generalizing s with
  | nil => exact Relation.ReflTransGen.refl
  | cons n names ih =>
      rw [fetchUnseen]
      split_ifs
      · exact ih s
      · exact (fetchRecord_moves s n).trans (ih _)

/-! ## Incoming Interests -/

theorem onSyncCertificate_moves (item : Block) (st : LedgerImpl σ × SyncFlags) :
    ReceiveMoves P amb received st.1 (onSyncCertificate P item st).1 := by
  unfold onSyncCertificate
  split
  · exact Relation.ReflTransGen.refl
  · split
    · exact Relation.ReflTransGen.refl
    · split_ifs
      · exact fetchRecord_moves st.1 _
      · exact Relation.ReflTransGen.refl

variable (amb received) in
theorem onSyncItem_moves (item : Block) (st : LedgerImpl σ × SyncFlags) :
    ReceiveMoves P amb received st.1 (onSyncItem P item st).1.1 ∧
      (onSyncItem P item st).2 ≠ .error .nullDereference := by
  unfold onSyncItem
  split_ifs
  · exact ⟨onSyncCertificate_moves item st, by simp⟩
  · exact ⟨Relation.ReflTransGen.refl, by simp⟩
  · cases Name.wireDecode item with
    | none => exact ⟨Relation.ReflTransGen.refl, by simp⟩
    | some recordName =>
        dsimp only
        split_ifs
        · exact ⟨Relation.ReflTransGen.refl, by simp⟩
        · exact ⟨Relation.ReflTransGen.refl, by simp⟩
        · exact ⟨fetchRecord_moves st.1 recordName, by simp⟩

variable (received) in
theorem onLedgerSyncRequest_safe (interest : Interest) (s : LedgerImpl σ) :
    Safe (ReceiveMove P amb received) s (onLedgerSyncRequest P interest s) := by
  unfold onLedgerSyncRequest
  rcases P.certManager.verifyInterest s.certManager interest with e | _ | _
  · exact Safe.thrown e
  · exact Safe.ok Relation.ReflTransGen.refl
  · simp only
    cases Tlv.parse interest.applicationParameters with
    | none => exact Safe.thrown _
    | some elements =>
        have hcancel : ReceiveMoves P amb received s (s.emit .replyCancelled) :=
          moves_emit s ⟨rfl, rfl⟩
        have hloop : ReceiveMoves P amb received s
            (Outcome.forEach (onSyncItem P) elements (s.emit .replyCancelled, {})).1.1 :=
          Outcome.forEach_invariant
            (fun st : LedgerImpl σ × SyncFlags => ReceiveMoves P amb received s st.1)
            (fun item _ st hst => hst.trans (onSyncItem_moves amb received item st).1) hcancel
        have hdef : (Outcome.forEach (onSyncItem P) elements (s.emit .replyCancelled, {})).2
            ≠ .error .nullDereference :=
          Outcome.forEach_ne_error (fun item _ st => (onSyncItem_moves amb received item st).2) _
        simp only
        rcases hrun : Outcome.forEach (onSyncItem P) elements (s.emit .replyCancelled, {}) with
          ⟨st, f | ⟨⟨⟩⟩⟩
        · rw [hrun] at hdef
          exact Safe.error fun hf => hdef (congrArg Except.error hf)
        · rw [hrun] at hloop
          refine Safe.ok ?_
          split_ifs
          · exact hloop.trans (moves_emit st.1 ⟨rfl, rfl⟩)
          · exact hloop

/-- A record that `getRecord` returns has its packet. -/
theorem getRecord_data (hs : TailInv P s) {n : Name} {record : Record}
    (h : s.getRecord P n = .ok (some record)) : ∃ d, record.data = some d := by
  unfold getRecord at h
  cases ht : s.tailRecords[n]? with
  | some t =>
      simp only [ht, Except.ok.injEq] at h
      split_ifs at h
      cases h
      obtain ⟨d, hd, _⟩ := (hs.sound.named n t ht).exists_data
      exact ⟨d, hd⟩
  | none =>
      simp only [ht] at h
      cases hb : s.backend.getRecord P.ndn n with
      | none => rw [hb] at h; cases h
      | some data =>
          simp only [hb] at h
          cases hdec : Record.ofData P.ndn data with
          | error e => rw [hdec] at h; cases h
          | ok r =>
              rw [hdec] at h
              cases h
              exact ⟨data, (Record.ofData_eq_ok hdec).2.1⟩

variable (received) in
theorem onRecordRequest_safe (hs : TailInv P s) (interest : Interest) :
    Safe (ReceiveMove P amb received) s (onRecordRequest P interest s) := by
  unfold onRecordRequest
  rcases hget : s.getRecord P interest.name with e | _ | record
  · exact Safe.thrown e
  · exact Safe.ok Relation.ReflTransGen.refl
  · obtain ⟨d, hd⟩ := getRecord_data hs hget
    simp only [hd]
    exact Safe.ok (moves_emit s ⟨rfl, rfl⟩)

/-! ## The sync stack -/

theorem readyToAdd_defined (record : Record) (s : LedgerImpl σ) :
    readyToAdd P record s ≠ .error .nullDereference := by
  unfold readyToAdd
  split_ifs
  · cases CertificateRecord.ofRecord P.ndn record <;> simp
  · simp

theorem checkEndorseValidityOfRecord_defined (data : Data) (s : LedgerImpl σ) :
    checkEndorseValidityOfRecord P amb data s ≠ .error .nullDereference := by
  unfold checkEndorseValidityOfRecord
  cases Record.ofData P.ndn data with
  | error e => simp
  | ok record =>
      simp only [bind, Except.bind, pure, Except.pure]
      cases P.certManager.endorseSignature s.certManager data with
      | error e => simp [Except.mapError]
      | ok endorsed =>
          simp only [Except.mapError]
          split_ifs
          · cases amb.onRecordAppEndorseCheck <;> simp
          · simp

theorem checkRecordAncestor_ok_true {record : Record}
    (h : checkRecordAncestor P amb record s = (s', .ok true)) :
    ∃ data endorseVerified, readyToAdd P record s = .ok true ∧ record.data = some data ∧
      checkEndorseValidityOfRecord P amb data s = .ok endorseVerified ∧
      addToTailingRecord P amb record endorseVerified s = (s', .ok ()) := by
  unfold checkRecordAncestor at h
  rcases hready : readyToAdd P record s with f | _ | _
  · rw [hready] at h; cases h
  · rw [hready] at h; cases h
  · simp only [hready] at h
    cases hdata : record.data with
    | none => rw [hdata] at h; cases h
    | some data =>
        simp only [hdata] at h
        cases hend : checkEndorseValidityOfRecord P amb data s with
        | error f => rw [hend] at h; cases h
        | ok endorseVerified =>
            simp only [hend] at h
            refine ⟨data, endorseVerified, rfl, rfl, hend, ?_⟩
            rcases hadd : addToTailingRecord P amb record endorseVerified s with ⟨s₁, f | ⟨⟨⟩⟩⟩
            · rw [hadd] at h; cases h
            · rw [hadd] at h; cases h; rfl

theorem checkRecordAncestor_ok_false {record : Record}
    (h : checkRecordAncestor P amb record s = (s', .ok false)) :
    s' = s ∧ readyToAdd P record s = .ok false := by
  unfold checkRecordAncestor at h
  rcases hready : readyToAdd P record s with f | _ | _
  · rw [hready] at h; cases h
  · rw [hready] at h; cases h; exact ⟨rfl, rfl⟩
  · simp only [hready] at h
    cases hdata : record.data with
    | none => rw [hdata] at h; cases h
    | some data =>
        simp only [hdata] at h
        cases hend : checkEndorseValidityOfRecord P amb data s with
        | error f => rw [hend] at h; cases h
        | ok endorseVerified =>
            simp only [hend] at h
            rcases hadd : addToTailingRecord P amb record endorseVerified s with ⟨s₁, f | ⟨⟨⟩⟩⟩
            · rw [hadd] at h; cases h
            · rw [hadd] at h; cases h

variable (amb) in
/-- An addition that is ready but for its name returns, or it throws at the name. -/
theorem addToTailingRecord_result (hs : TailInv P s) {record : Record}
    (endorseVerified : Bool) {d : Data} (hd : record.data = some d)
    (hfresh : s.tailRecords[P.ndn.fullName d]? = none)
    (hready : (endorseVerified = true → RecordName.check (P.ndn.fullName d) = .ok ()) →
      AddReady P s record endorseVerified (P.ndn.fullName d)) :
    (addToTailingRecord P amb record endorseVerified s).2
      = if endorseVerified then (RecordName.check (P.ndn.fullName d)).mapError .thrown
        else .ok () := by
  have hok : (endorseVerified = true → RecordName.check (P.ndn.fullName d) = .ok ()) →
      (addToTailingRecord P amb record endorseVerified s).2 = .ok () := by
    intro hcheck
    obtain ⟨s₁, _, _, _, hrun, _⟩ := addToTailingRecord_spec amb
      hs.sound.walkable hs.sound.named (hready hcheck)
    rw [hrun]
  cases endorseVerified with
  | false => exact hok (by simp)
  | true =>
      cases hcheck : RecordName.check (P.ndn.fullName d) with
      | ok _ => exact hok fun _ => hcheck
      | error e =>
          rw [addToTailingRecord_throws hd hfresh hcheck]
          rfl

variable (amb) in
theorem addToTailingRecord_defined (hs : TailInv P s) {record : Record}
    (endorseVerified : Bool) {d : Data} (hd : record.data = some d)
    (hready : s.tailRecords[P.ndn.fullName d]? = none →
      (endorseVerified = true → RecordName.check (P.ndn.fullName d) = .ok ()) →
      AddReady P s record endorseVerified (P.ndn.fullName d)) :
    (addToTailingRecord P amb record endorseVerified s).2 ≠ .error .nullDereference := by
  cases hfresh : s.tailRecords[P.ndn.fullName d]? with
  | some t =>
      rw [addToTailingRecord_of_tail hd hfresh]
      simp
  | none =>
      rw [addToTailingRecord_result amb hs endorseVerified hd hfresh (hready hfresh)]
      split_ifs
      · cases RecordName.check (P.ndn.fullName d) <;> simp [Except.mapError]
      · simp

variable (amb) in
theorem LedgerInv.checkRecordAncestor_defined (hs : LedgerInv P s) {it : Record × Int}
    (hit : it ∈ s.syncStack) :
    (checkRecordAncestor P amb it.1 s).2 ≠ .error .nullDereference := by
  obtain ⟨n, hn, hfresh, hstored⟩ := hs.stack.waiting it hit
  obtain ⟨d, hd, rfl⟩ := hn.exists_data
  unfold checkRecordAncestor
  rcases hready : readyToAdd P it.1 s with f | _ | _
  · intro h
    exact readyToAdd_defined it.1 s (hready.trans h)
  · simp
  · simp only [hd]
    cases hend : checkEndorseValidityOfRecord P amb d s with
    | error f =>
        intro h
        exact checkEndorseValidityOfRecord_defined d s (hend.trans h)
    | ok endorseVerified =>
        have hdef := addToTailingRecord_defined amb hs.tail endorseVerified hd
          fun _ hname => (hs.ledgerHeld.ready_stack hit hready hn hname).1
        simp only
        rcases hadd : addToTailingRecord P amb it.1 endorseVerified s with ⟨s₁, f | ⟨⟨⟩⟩⟩
        · rw [hadd] at hdef
          exact fun h => hdef (congrArg Except.error (Except.error.inj h))
        · simp

/-- **The check of a waiting record returns** when its full name is a record name and both checks
before the addition return. -/
theorem LedgerInv.checkRecordAncestor_ok (hs : LedgerInv P s) {it : Record × Int}
    (hit : it ∈ s.syncStack) {d : Data} (hd : it.1.data = some d)
    (hname : RecordName.check (P.ndn.fullName d) = .ok ()) {ready : Bool}
    (hready : readyToAdd P it.1 s = .ok ready)
    (hendorse : ready = true → ∃ e, checkEndorseValidityOfRecord P amb d s = .ok e) (f : Fault) :
    (checkRecordAncestor P amb it.1 s).2 ≠ .error f := by
  unfold checkRecordAncestor
  rw [hready]
  cases ready with
  | false => simp
  | true =>
      obtain ⟨e, he⟩ := hendorse rfl
      obtain ⟨n, hn, hfresh, _⟩ := hs.stack.waiting it hit
      obtain ⟨d', hd', rfl⟩ := hn.exists_data
      rw [hd] at hd'
      cases hd'
      have hresult := addToTailingRecord_result amb hs.tail e hd hfresh
        fun hcheck => (hs.ledgerHeld.ready_stack hit hready hn hcheck).1
      rw [hname] at hresult
      have hok : (addToTailingRecord P amb it.1 e s).2 = .ok () := by
        rw [hresult]
        cases e <;> rfl
      simp only [hd, he]
      rcases hrun : addToTailingRecord P amb it.1 e s with ⟨s₁, f' | ⟨⟨⟩⟩⟩
      · rw [hrun] at hok
        cases hok
      · simp

/-! ## What a scan of the stack does -/

/-- After some moves, the check of an entry of the sync stack stops with a fault. -/
def Raised (P : Peer σ) (amb : Ambient) (received : Data → Prop) (s : LedgerImpl σ) (f : Fault) :
    Prop :=
  ∃ a it, ReceiveMoves P amb received s a ∧ it ∈ a.syncStack ∧
    (checkRecordAncestor P amb it.1 a).2 = .error f

/-- A call that makes moves if it returns, and otherwise stops with the fault of an entry of the
sync stack. -/
structure Traced {α : Type} (P : Peer σ) (amb : Ambient) (received : Data → Prop)
    (s : LedgerImpl σ) (out : LedgerImpl σ × Except Fault α) : Prop where
  moves : ∀ a, out.2 = .ok a → ReceiveMoves P amb received s out.1
  raised : ∀ f, out.2 = .error f → Raised P amb received s f

theorem Traced.ok {α : Type} {a : α} (h : ReceiveMoves P amb received s s') :
    Traced P amb received s (s', (.ok a : Except Fault α)) :=
  ⟨fun _ _ => h, fun _ hf => by simp at hf⟩

theorem Traced.after {α : Type} {out : LedgerImpl σ × Except Fault α}
    (hs : ReceiveMoves P amb received s s') (h : Traced P amb received s' out) :
    Traced P amb received s out := by
  refine ⟨fun a ha => hs.trans (h.moves a ha), fun f hf => ?_⟩
  obtain ⟨b, it, hmoves, hit, hcheck⟩ := h.raised f hf
  exact ⟨b, it, hs.trans hmoves, hit, hcheck⟩

/-- One pass over the rest of the sync stack. -/
theorem scanStack_traced (before rest : List (Record × Int)) {s : LedgerImpl σ}
    (hstack : s.syncStack = before ++ rest) :
    Traced P amb received s (scanStack P amb before rest s) := by
  induction rest generalizing before s with
  | nil => exact Traced.ok Relation.ReflTransGen.refl
  | cons it rest ih =>
      have hit : it ∈ s.syncStack := by rw [hstack]; simp
      rw [scanStack]
      rcases hcheck : checkRecordAncestor P amb it.1 s with ⟨s₁, f | _ | _⟩
      · refine ⟨fun a ha => by simp at ha, fun f' hf' => ?_⟩
        dsimp only at hf'
        exact ⟨s, it, Relation.ReflTransGen.refl, hit, by
          rw [hcheck, Except.error.inj hf']⟩
      · obtain ⟨heq, hready⟩ := checkRecordAncestor_ok_false hcheck
        subst heq
        dsimp only
        split_ifs with hlate
        · exact Traced.after (Relation.ReflTransGen.single (ReceiveMove.drop hstack hlate))
            (ih before rfl)
        · exact ih (before ++ [it]) (by rw [hstack]; simp)
      · obtain ⟨data, endorseVerified, hready, hdata, hend, hadd⟩ :=
          checkRecordAncestor_ok_true hcheck
        exact Traced.after (Relation.ReflTransGen.single
          (ReceiveMove.resolve hstack hready hdata hend hadd)) (ih before rfl)

theorem rescanStack_traced (fuel : Nat) (stackSize : Option Nat) (s : LedgerImpl σ) :
    Traced P amb received s (rescanStack P amb fuel stackSize s) := by
  induction fuel generalizing stackSize s with
  | zero => exact Traced.ok Relation.ReflTransGen.refl
  | succ fuel ih =>
      rw [rescanStack]
      split_ifs
      · exact Traced.ok Relation.ReflTransGen.refl
      · have hscan : Traced P amb received s (scanStack P amb [] s.syncStack s) :=
          scanStack_traced [] s.syncStack rfl
        rcases hrun : scanStack P amb [] s.syncStack s with ⟨s₁, f | ⟨⟨⟩⟩⟩
        · rw [hrun] at hscan
          exact hscan
        · rw [hrun] at hscan
          exact Traced.after (hscan.moves () rfl) (ih _ s₁)

/-- What returns has made moves only. -/
theorem Traced.moves_of_eq {α : Type} {out : LedgerImpl σ × Except Fault α} {a : α}
    (h : Traced P amb received s out) (hrun : out = (s', .ok a)) :
    ReceiveMoves P amb received s s' := by
  subst hrun
  exact h.moves a rfl

theorem rescanStack_moves {fuel : Nat} {stackSize : Option Nat}
    (hrun : rescanStack P amb fuel stackSize s = (s', .ok ())) :
    ReceiveMoves P amb received s s' :=
  (rescanStack_traced fuel stackSize s).moves_of_eq hrun

/-! ## Received records -/

theorem checkSyntaxValidityOfRecord_defined (data : Data) (s : LedgerImpl σ) :
    checkSyntaxValidityOfRecord P amb data s ≠ .error .nullDereference := by
  unfold checkSyntaxValidityOfRecord parseRecord
  cases hdec : Record.ofData P.ndn data with
  | error e => simp [bind, Except.bind]
  | ok record =>
      simp only [bind, Except.bind, pure, Except.pure]
      cases record.checkPointerCount P.config.precedingRecordNum with
      | error e => simp
      | ok _ =>
          -- a record that was read from a packet has the packet, so nothing is null
          have hsyntax : checkSyntaxOfRecord P amb record data s ≠ .error .nullDereference := by
            obtain ⟨hcheck, hdata, _⟩ := Record.ofData_eq_ok hdec
            have hofName := RecordName.ofName_of_check hcheck
            simp only [checkSyntaxOfRecord, Record.getProducerPrefix,
              Record.getGenerationTimestamp, hdata, hofName, bind, Except.bind, pure, Except.pure,
              Except.map, Except.mapError]
            cases P.certManager.verifySignature s.certManager data with
            | error e => simp
            | ok signed =>
                simp only
                split_ifs
                · simp
                · simp
                · cases checkInterlock (RecordName.getProducerPrefix data.name)
                    record.recordPointers with
                  | error e => simp
                  | ok interlocked =>
                      cases interlocked with
                      | false => simp
                      | true =>
                          cases P.certManager.verifyRecordFormat s.certManager record <;> simp
                · cases checkInterlock (RecordName.getProducerPrefix data.name)
                    record.recordPointers with
                  | error e => simp
                  | ok interlocked => cases interlocked <;> simp
          cases hrun : checkSyntaxOfRecord P amb record data s with
          | error f =>
              rw [hrun] at hsyntax
              simpa only [hrun] using hsyntax
          | ok good =>
              simp only [hrun]
              cases amb.onRecordAppRetrievalCheck <;> simp

variable (amb) in
/-- The `try` block of a packet that is neither seen nor waiting: no fault escapes it. -/
theorem receiveRecord_moves {data : Data} (hreceived : received data)
    (hunseen : s.seenRecord P (P.ndn.fullName data) = false)
    (hunstacked : ∀ it ∈ s.syncStack, it.1.getRecordName P.ndn ≠ P.ndn.fullName data) :
    ∃ s' ready, receiveRecord P amb data s = (s', .ok ready) ∧
      ReceiveMoves P amb received s s' := by
  unfold receiveRecord
  cases hdec : Record.ofData P.ndn data with
  | error e => exact ⟨s, false, rfl, Relation.ReflTransGen.refl⟩
  | ok record =>
      simp only
      split_ifs with hgenesis hcert
      · exact ⟨s, false, rfl, Relation.ReflTransGen.refl⟩
      all_goals
        rcases hcheck : checkSyntaxValidityOfRecord P amb data s with (e | _) | _ | _
        · exact ⟨s, false, rfl, Relation.ReflTransGen.refl⟩
        · exact absurd hcheck (checkSyntaxValidityOfRecord_defined data s)
        · exact ⟨s, false, rfl, Relation.ReflTransGen.refl⟩
      all_goals
        have hpush : ReceiveMoves P amb received s
            (s.withStack (s.syncStack ++ [(record, amb.now)])) :=
          Relation.ReflTransGen.single
            (ReceiveMove.push hreceived hdec hgenesis hunseen hunstacked hcheck)
        have hfetch := hpush.trans (fetchUnseen_moves record.recordPointers _)
      · simp only
        cases CertificateRecord.ofRecord P.ndn record with
        | error e => exact ⟨_, false, rfl, hfetch⟩
        | ok certRecord => exact ⟨_, _, rfl, hfetch.trans (fetchUnseen_moves _ _)⟩
      · exact ⟨_, _, rfl, hfetch⟩

/-- No entry of the sync stack has this name. -/
theorem unstacked_of_any {name : Name} (h : ¬ (s.syncStack.any fun stackRecord =>
    stackRecord.1.getRecordName P.ndn == name) = true) :
    ∀ it ∈ s.syncStack, it.1.getRecordName P.ndn ≠ name :=
  fun it hit heq => h (List.any_eq_true.2 ⟨it, hit, beq_iff_eq.2 heq⟩)

/-- **A fault that escapes `onFetchedRecord` is that of an entry of the sync stack.** -/
theorem onFetchedRecord_traced (s : LedgerImpl σ) {data : Data} (hreceived : received data) :
    Traced P amb received s (onFetchedRecord P amb data s) := by
  unfold onFetchedRecord
  simp only
  split_ifs with hseen hstack
  · exact Traced.ok Relation.ReflTransGen.refl
  · exact Traced.ok Relation.ReflTransGen.refl
  · obtain ⟨s₁, ready, hrun, hmoves⟩ := receiveRecord_moves amb hreceived
      (Bool.not_eq_true _ ▸ hseen) (unstacked_of_any hstack)
    rw [hrun]
    cases ready with
    | false => exact Traced.ok hmoves
    | true => exact Traced.after hmoves (rescanStack_traced _ none s₁)

theorem onFetchedRecord_moves {data : Data} (hreceived : received data)
    (hrun : onFetchedRecord P amb data s = (s', .ok ())) : ReceiveMoves P amb received s s' :=
  (onFetchedRecord_traced s hreceived).moves_of_eq hrun

variable (received) in
/-- **`onFetchedRecord` is safe**, on any packet. -/
theorem onFetchedRecord_safe (hpos : 1 ≤ P.config.confirmWeight)
    (hsmall : P.config.SmallWeights) (hput : ∀ m, amb.putOk m = true) (hs : LedgerInv P s)
    {data : Data} (hreceived : received data) :
    Safe (ReceiveMove P amb received) s (onFetchedRecord P amb data s) := by
  have htraced : Traced P amb received s (onFetchedRecord P amb data s) :=
    onFetchedRecord_traced s hreceived
  refine ⟨htraced.moves, fun hnull => ?_⟩
  obtain ⟨a, it, hmoves, hit, hcheck⟩ := htraced.raised _ hnull
  exact (hs.receiveMoves hpos hsmall hput hmoves).checkRecordAncestor_defined amb hit hcheck

/-! ## Created records -/

theorem addLastCertRecords_ok {certNames : List Name} {record record' : Record}
    (h : addLastCertRecords certNames record = .ok record') :
    record' = { record with contentItems := record'.contentItems } := by
  induction certNames generalizing record with
  | nil => cases h; rfl
  | cons n certNames ih =>
      simp only [addLastCertRecords, bind, Except.bind, Record.addRecordItem] at h
      by_cases hdata : record.data.isSome = true
      · rw [if_pos hdata] at h
        cases h
      · rw [if_neg hdata] at h
        simp only at h
        have heq := ih h
        exact heq

/-- The pointers that are added are candidates. -/
theorem addPointers_ok {num : Nat} {candidates : List (Name × Nat)} {record record' : Record}
    (h : addPointers num candidates record = .ok record') :
    ∃ pointers, record' = { record with recordPointers := record.recordPointers ++ pointers } ∧
      ∀ p ∈ pointers, ∃ weight, (p, weight) ∈ candidates := by
  induction candidates generalizing record with
  | nil =>
      cases h
      exact ⟨[], by rw [List.append_nil], fun p hp => absurd hp List.not_mem_nil⟩
  | cons c candidates ih =>
      simp only [addPointers, bind, Except.bind, Record.addPointer, pure, Except.pure] at h
      by_cases hdata : record.data.isSome = true
      · rw [if_pos hdata] at h
        cases h
      · rw [if_neg hdata] at h
        simp only at h
        by_cases hlen : num ≤ (record.recordPointers ++ [c.1]).length
        · rw [if_pos hlen] at h
          cases h
          refine ⟨[c.1], rfl, fun p hp => ⟨c.2, ?_⟩⟩
          rw [List.mem_singleton.1 hp]
          exact List.mem_cons_self
        · rw [if_neg hlen] at h
          obtain ⟨pointers, heq, hmem⟩ := ih h
          refine ⟨c.1 :: pointers, by rw [heq]; simp, fun p hp => ?_⟩
          rcases List.mem_cons.1 hp with rfl | hp
          · exact ⟨c.2, List.mem_cons_self⟩
          · obtain ⟨weight, hw⟩ := hmem p hp
            exact ⟨weight, List.mem_cons_of_mem c hw⟩

theorem mem_recordList {p : Name} {weight : Nat} (h : (p, weight) ∈ recordList P s) :
    ∃ t, s.tailRecords[p]? = some t ∧ t.parentEndorseVerified = true ∧
      t.refSet.card ≤ P.config.appendWeight ∧ P.config.peerPrefix.isPrefixOf p = false := by
  simp only [recordList, List.mem_map, List.mem_filter, Bool.and_eq_true, decide_eq_true_eq,
    Bool.not_eq_true'] at h
  obtain ⟨⟨q, t⟩, ⟨hq, ⟨hweight, hpre⟩, hv⟩, heq⟩ := h
  cases heq
  exact ⟨t, Std.TreeMap.mem_toList_iff_getElem?_eq_some.1 hq, hv, hweight, hpre⟩

/-- The steps of `createRecord` up to a signature. -/
theorem buildRecord_ok {record record' : Record} {data : Data}
    (h : buildRecord P amb record s = (record', .ok (.ok data))) :
    ∃ items, addPointers P.config.precedingRecordNum (amb.shuffle (recordList P s))
        { record with contentItems := items } = .ok record' ∧
      P.config.precedingRecordNum ≤ (recordList P s).length ∧
      data.name = generateRecordName P.ndn P.config.peerPrefix record' amb.now ∧
      record'.wireEncode = .ok data.content := by
  -- each test that fails ends the call without a signature
  unfold buildRecord at h
  by_cases hempty : s.tailRecords.isEmpty = true
  · rw [if_pos hempty] at h; cases h
  rw [if_neg hempty] at h
  by_cases hauth : (!P.certManager.authorizedToGenerate s.certManager) = true
  · rw [if_pos hauth] at h; cases h
  rw [if_neg hauth] at h
  rcases hcerts : (if record.type = .certificateRecord then
      addLastCertRecords s.lastCertRecords record else .ok record) with e | withCerts
  · simp only [hcerts] at h; cases h
  have hitems : withCerts = { record with contentItems := withCerts.contentItems } := by
    split_ifs at hcerts
    · exact addLastCertRecords_ok hcerts
    · cases hcerts; rfl
  simp only [hcerts] at h
  by_cases hnum : (recordList P s).length < P.config.precedingRecordNum
  · rw [if_pos hnum] at h; cases h
  rw [if_neg hnum] at h
  cases hpointers : addPointers P.config.precedingRecordNum (amb.shuffle (recordList P s))
      withCerts with
  | error e => simp only [hpointers] at h; cases h
  | ok withPointers =>
      simp only [hpointers] at h
      cases hcontent : withPointers.wireEncode with
      | error e => simp only [hcontent] at h; cases h
      | ok content =>
          simp only [hcontent] at h
          cases hsign : amb.signData
              (generateRecordName P.ndn P.config.peerPrefix withPointers amb.now) content with
          | error reason => simp only [hsign] at h; cases h
          | ok signature =>
              simp only [hsign] at h
              cases h
              exact ⟨withCerts.contentItems, hitems ▸ hpointers, by omega, rfl, hcontent⟩

/-- **What `createRecord` signs is a record with its pointers among the candidates.** -/
theorem buildRecord_built {record record' : Record} {data : Data}
    (hfresh : record.Fresh P.ndn)
    (h : buildRecord P amb record s = (record', .ok (.ok data))) :
    Built P s { record' with data := some data } data := by
  obtain ⟨items, hpointers, _, hname, hcontent⟩ := buildRecord_ok h
  obtain ⟨pointers, rfl, hmem⟩ := addPointers_ok hpointers
  have htype : record.type ≠ .genesisRecord := by
    intro heq
    have := hfresh.type_mem
    rw [heq] at this
    simp at this
  rw [generateRecordName, if_neg htype] at hname
  refine ⟨rfl, htype, fun hcheck => ?_,
    getProducerPrefix_of_build hfresh.identifier hname, fun p hp => ?_⟩
  · exact named_of_encoded P.config.peerPrefix amb.now hfresh.identifier rfl hname hcontent hcheck
  · simp only [hfresh.recordPointers_eq, List.nil_append] at hp
    obtain ⟨weight, hw⟩ := hmem p hp
    exact mem_recordList ((amb.shuffle_perm _).mem_iff.1 hw)

variable (P amb) in
theorem buildRecord_defined (record : Record) (s : LedgerImpl σ) :
    (buildRecord P amb record s).2 ≠ .error .nullDereference := by
  unfold buildRecord
  dsimp only
  repeat' split
  all_goals simp

end LedgerImpl

end DLedger
