import DLedger.Ledger.Create

set_option autoImplicit false

/-! # Verified records have record names

A walk that returns has constructed a `RecordName` of everything that it starts from and that it
reaches. So where one of the two flags of an entry is set, its name is a record name. This holds
in every run whose calls return, whatever the configuration.
-/

namespace DLedger

open Tlv (Bytes Block)

namespace LedgerImpl

variable {σ : Type} {P : Peer σ} {amb : Ambient} {s s' : LedgerImpl σ} {record : Record}
  {endorseVerified : Bool} {n : Name} {tail : TailMap}

def FlagsChecked (tail : TailMap) : Prop :=
  ∀ (n : Name) (t : TailingRecordState), tail[n]? = some t →
    (t.parentEndorseVerified = true ∨ t.recordEndorseVerified = true) →
    RecordName.check n = .ok ()

/-! ## Elementary changes -/

theorem FlagsChecked.setTail (h : FlagsChecked s.tailRecords) {t : TailingRecordState}
    (ht : (t.parentEndorseVerified = true ∨ t.recordEndorseVerified = true) →
      RecordName.check n = .ok ()) : FlagsChecked (s.setTail n t).tailRecords := by
  intro m u hu
  rw [setTail_getElem?] at hu
  split_ifs at hu with heq
  · cases hu
    exact heq ▸ ht
  · exact h m u hu

theorem FlagsChecked.eraseTail (h : FlagsChecked s.tailRecords) (n : Name) :
    FlagsChecked (s.eraseTail n).tailRecords := by
  intro m u hu
  rw [eraseTail_getElem?] at hu
  split_ifs at hu
  exact h m u hu

/-! ## The walk -/

/-- What the walk keeps: it has checked the names of the records that it updates. -/
structure WalkChecked (w : WalkState σ) : Prop where
  flags : FlagsChecked w.ledger.tailRecords
  updated : ∀ p ∈ w.updatedRecords, RecordName.check p = .ok ()

theorem WalkChecked.visitPointer {w : WalkState σ} (h : WalkChecked w) (p : Name) :
    WalkChecked (visitPointer record p w).1 := by
  unfold LedgerImpl.visitPointer
  cases hname : RecordName.ofName p with
  | error e => exact h
  | ok preceding =>
      have hcheck := RecordName.check_of_ofName hname
      cases record.getProducerPrefix with
      | error f => exact h
      | ok producer =>
          simp only
          by_cases hown : RecordName.getProducerPrefix preceding.name = producer
          · rw [if_pos hown]
            exact h
          rw [if_neg hown]
          cases ht : w.ledger.tailRecords[p]? with
          | none => exact h
          | some state =>
              simp only
              split_ifs
              · exact h
              · refine ⟨h.flags.setTail fun _ => hcheck, fun q hq => ?_⟩
                rcases Std.TreeSet.mem_insert.1 hq with heq | hq
                · exact Std.LawfulEqOrd.eq_of_compare heq ▸ hcheck
                · exact h.updated q hq

theorem WalkChecked.weightWalk (fuel : Nat) {w : WalkState σ} (h : WalkChecked w) :
    WalkChecked (weightWalk P record fuel w).1 :=
  weightWalk_invariant WalkChecked (fun _ _ hw => ⟨hw.flags, hw.updated⟩)
    (fun p _ hw => hw.visitPointer p) fuel h

/-! ## The rest of `addToTailingRecord` -/

theorem FlagsChecked.processUpdated {st : LedgerImpl σ × Bool}
    (h : FlagsChecked st.1.tailRecords) (hn : RecordName.check n = .ok ()) :
    FlagsChecked (processUpdated P amb n st).1.1.tailRecords := by
  unfold LedgerImpl.processUpdated
  set tail := st.1.tailRecords.insertIfNew n {} with htail
  -- `operator[]` may make an entry here, with neither flag set
  have hmid : FlagsChecked (st.1.withTail tail).tailRecords := by
    intro m u hu
    rw [withTail_tailRecords, htail, Std.TreeMap.getElem?_insertIfNew] at hu
    split_ifs at hu
    · cases hu
      intro hflags
      rcases hflags with hv | hv <;> cases hv
    · exact h m u hu
  -- only this branch sets a flag, under a name that the walk has checked
  have hconfirm : FlagsChecked (confirmUpdated P amb n (tail.getD n {})
      (st.1.withTail tail, st.2)).1.1.tailRecords := by
    unfold confirmUpdated
    split_ifs
    · have hget : ((st.1.withTail tail).setTail n
            { tail.getD n {} with parentEndorseVerified := true }).getRecord P n
          = .ok (some (tail.getD n {}).record) := by
        simp [LedgerImpl.getRecord]
      simp only [hget]
      have hset := hmid.setTail (n := n)
        (t := { tail.getD n {} with parentEndorseVerified := true }) fun _ => hn
      rw [← confirmAll_tailRecords P amb [(tail.getD n {}).record]] at hset
      exact hset
    · exact hmid
  rcases hrun : confirmUpdated P amb n (tail.getD n {}) (st.1.withTail tail, st.2)
    with ⟨st', f | ⟨⟨⟩⟩⟩
  · rw [hrun] at hconfirm
    unfold LedgerImpl.withTail at hrun
    simp only [hrun]
    exact hconfirm
  · rw [hrun] at hconfirm
    unfold LedgerImpl.withTail at hrun
    simp only [hrun, removeUpdated]
    split_ifs
    · exact hconfirm.eraseTail n
    · exact hconfirm

theorem FlagsChecked.updateReference {st : LedgerImpl σ × Bool}
    (h : FlagsChecked st.1.tailRecords) (n : Name) :
    FlagsChecked (updateReference P n st).1.1.tailRecords := by
  unfold LedgerImpl.updateReference
  cases ht : st.1.tailRecords[n]? with
  | none => exact h
  | some r =>
      simp only
      split_ifs with hflags
      · simp only [Bool.and_eq_true] at hflags
        rcases st.1.getRecord P n with e | _ | current
        · exact h
        · exact h
        · simp only
          split_ifs
          · exact h.setTail fun _ => h n r ht (Or.inr hflags.2)
          · exact h
      · exact h

theorem FlagsChecked.updateReferences (fuel : Nat) {st : LedgerImpl σ × Bool}
    (h : FlagsChecked st.1.tailRecords) :
    FlagsChecked (updateReferences P fuel st).1.tailRecords := by
  induction fuel generalizing st with
  | zero => exact h
  | succ fuel ih =>
      unfold LedgerImpl.updateReferences
      split_ifs
      · have hloop : FlagsChecked (Outcome.forEach (LedgerImpl.updateReference P)
            st.1.tailRecords.keys (st.1, false)).1.1.tailRecords :=
          Outcome.forEach_invariant (fun st : LedgerImpl σ × Bool => FlagsChecked st.1.tailRecords)
            (fun n _ st hst => hst.updateReference n) h
        rcases hrun : Outcome.forEach (LedgerImpl.updateReference P) st.1.tailRecords.keys
            (st.1, false) with ⟨st', f | ⟨⟨⟩⟩⟩
        · rw [hrun] at hloop
          exact hloop
        · rw [hrun] at hloop
          exact ih hloop
      · exact h

/-- A record whose name is no record name is not added as an endorsed one: the walk throws. -/
theorem check_of_addToTailingRecord
    (hfresh : s.tailRecords.contains (record.getRecordName P.ndn) = false)
    (hrun : addToTailingRecord P amb record true s = (s', .ok ())) :
    RecordName.check (record.getRecordName P.ndn) = .ok () := by
  cases hcheck : RecordName.check (record.getRecordName P.ndn) with
  | ok u => rfl
  | error e =>
      unfold addToTailingRecord at hrun
      simp only [hfresh, Bool.false_eq_true, if_false, walkStart, if_true, weightWalk,
        RecordName.ofName_of_check_error hcheck] at hrun
      cases hrun

/-- **An addition that returns keeps the names checked.** -/
theorem FlagsChecked.addToTailingRecord (h : FlagsChecked s.tailRecords)
    (hrun : addToTailingRecord P amb record endorseVerified s = (s', .ok ())) :
    FlagsChecked s'.tailRecords := by
  cases hcontains : s.tailRecords.contains (record.getRecordName P.ndn) with
  | true =>
      rw [LedgerImpl.addToTailingRecord, if_pos hcontains] at hrun
      cases hrun
      exact h
  | false =>
      -- the call returns, so the walk has constructed the name of a verified new record
      have hinsert : FlagsChecked (insertRecord P amb record endorseVerified s).tailRecords := by
        refine FlagsChecked.setTail (s := s.emit (.inserted record endorseVerified)) h ?_
        cases endorseVerified with
        | true => exact fun _ => check_of_addToTailingRecord hcontains hrun
        | false =>
            intro hflags
            rcases hflags with hv | hv <;> cases hv
      have hstart : WalkChecked (walkStart P record endorseVerified
          (insertRecord P amb record endorseVerified s)) :=
        ⟨hinsert, fun p hp => by simp [walkStart] at hp⟩
      have hwalk : WalkChecked (weightWalk P record
          ((insertRecord P amb record endorseVerified s).tailRecords.size + 1)
          (walkStart P record endorseVerified
            (insertRecord P amb record endorseVerified s))).1 := hstart.weightWalk _
      unfold LedgerImpl.addToTailingRecord at hrun
      simp only [hcontains, Bool.false_eq_true, if_false] at hrun
      rcases hw : weightWalk P record
          ((insertRecord P amb record endorseVerified s).tailRecords.size + 1)
          (walkStart P record endorseVerified (insertRecord P amb record endorseVerified s))
        with ⟨w, f | ⟨⟨⟩⟩⟩
      · rw [hw] at hrun
        cases hrun
      rw [hw] at hrun hwalk
      dsimp only at hrun hwalk
      have hloop : FlagsChecked (Outcome.forEach (LedgerImpl.processUpdated P amb)
          w.updatedRecords.toList (w.ledger, false)).1.1.tailRecords :=
        Outcome.forEach_invariant (fun st : LedgerImpl σ × Bool => FlagsChecked st.1.tailRecords)
          (fun n hn st hst =>
            hst.processUpdated (hwalk.updated n (Std.TreeSet.mem_toList.1 hn))) hwalk.flags
      rcases hl : Outcome.forEach (LedgerImpl.processUpdated P amb) w.updatedRecords.toList
          (w.ledger, false) with ⟨st, f | ⟨⟨⟩⟩⟩
      · rw [hl] at hrun
        cases hrun
      rw [hl] at hrun hloop
      dsimp only at hrun hloop
      have hupdate := hloop.updateReferences (P := P) (st.1.tailRecords.size + 1)
      rcases hu : LedgerImpl.updateReferences P (st.1.tailRecords.size + 1) st
        with ⟨s₁, f | ⟨⟨⟩⟩⟩
      · rw [hu] at hrun
        cases hrun
      · rw [hu] at hrun hupdate
        cases hrun
        exact fun n t ht =>
          hupdate n t ((removeTimeoutRecords_getElem? P amb s₁ n t).1 ht).1

/-! ## Runs -/

theorem FlagsChecked.onFetchedRecord (h : FlagsChecked s.tailRecords) {data : Data}
    (hrun : onFetchedRecord P amb data s = (s', .ok ())) : FlagsChecked s'.tailRecords := by
  have hmoves : ReceiveMoves P amb (fun _ => True) s s' := onFetchedRecord_moves trivial hrun
  clear hrun
  induction hmoves with
  | refl => exact h
  | tail _ hmove ih =>
      cases hmove with
      | emit quiet => exact ih
      | push receive decoded type_ne unseen unstacked checked => exact ih
      | drop stack late => exact ih
      | resolve stack ready data_eq endorse added =>
          have hadded := ih.addToTailingRecord added
          exact hadded

theorem FlagsChecked.onlySends (h : FlagsChecked s.tailRecords) {events : List Event}
    (hsends : OnlySends P s s' events) : FlagsChecked s'.tailRecords := by
  rw [hsends.eq]
  exact h

/-- The genesis records have record names, or the constructor throws. -/
theorem flagsChecked_construct {db : Backend} {certManager : σ}
    (h : construct P amb db certManager = (s, .ok ())) : FlagsChecked s.tailRecords := by
  obtain ⟨_, s₁, hrun, rfl⟩ := construct_ok h
  have hblank : FlagsChecked (blank db certManager).tailRecords := by
    intro n t ht
    simp [blank] at ht
  obtain ⟨events, hsends⟩ := sendSyncInterest_sends P amb s₁
  refine FlagsChecked.onlySends (Outcome.forEach_ok_invariant
    (fun s : LedgerImpl σ => FlagsChecked s.tailRecords) (fun i _ a b ha hab => ?_) hblank hrun)
    hsends
  unfold addGenesis at hab
  cases hdata : genesisData P i with
  | error e =>
      rw [hdata] at hab
      cases hab
  | ok record =>
      rw [hdata] at hab
      exact ha.addToTailingRecord hab

/-- **In every run whose calls return, a verified record has a record name.** -/
theorem RunsTo.flagsChecked {db : Backend} {certManager : σ}
    (h : RunsTo P db certManager (CallReturns P) s) : FlagsChecked s.tailRecords := by
  induction h with
  | start hstart => exact flagsChecked_construct hstart
  | @call s c _ hreturns ih =>
      have hrun : LedgerImpl.call P c s = ((LedgerImpl.call P c s).1, .ok ()) :=
        Outcome.eq_of_returns hreturns
      rcases call_cases (P := P) c s with ⟨amb, record, rfl⟩ | ⟨amb, data, rfl⟩ | ⟨events, h⟩
      · rcases createRecord_cases hrun with ⟨events, h⟩ | ⟨_, _, _, events, _, _, hadd, h⟩
        · exact ih.onlySends h
        · exact (ih.addToTailingRecord hadd).onlySends h
      · exact ih.onFetchedRecord hrun
      · exact ih.onlySends h

end LedgerImpl

end DLedger
