import DLedger.Delivery.Quiescent
import DLedger.Reentrant.Machine

set_option autoImplicit false

/-! # Calls whose callbacks append nothing

Where the application makes no call while a call of it is under way, the machine goes through the
points of that call one after the other and ends where `call` ends.
-/

namespace DLedger

open Tlv (Bytes Block)

namespace Machine

open LedgerImpl

variable {σ : Type} {P : Peer σ} {amb : Ambient} {m m' : Machine σ} {s s' : LedgerImpl σ}
  {record : Record} {endorseVerified creates : Bool} {scan : Option Scan}

/-- Going on, some times. -/
abbrev Resumes (P : Peer σ) : Machine σ → Machine σ → Prop :=
  Relation.ReflTransGen fun m m' => resume P m = .ok m'

theorem Resumes.step (h : resume P m = .ok m') : Resumes P m m' := Relation.ReflTransGen.single h

/-! ## The loop over the updated records -/

/-- The reference set of the entry is not changed when its record is confirmed. -/
theorem confirmUpdated_refSet {n : Name} {state : TailingRecordState} {st st' : LedgerImpl σ × Bool}
    (hstate : st.1.tailRecords[n]? = some state)
    (hrun : confirmUpdated P amb n state st = (st', .ok ())) :
    (st'.1.tailRecords.getD n {}).refSet = state.refSet := by
  rw [Std.TreeMap.getD_eq_getD_getElem?]
  unfold confirmUpdated at hrun
  split_ifs at hrun with hc
  · dsimp only at hrun
    split at hrun
    · cases hrun
    · cases hrun
    · next record hget =>
        have htail : (onRecordConfirmed P amb record
            (st.1.setTail n { state with parentEndorseVerified := true })).1.tailRecords
            = (st.1.setTail n { state with parentEndorseVerified := true }).tailRecords :=
          confirmAll_tailRecords P amb [record] _
        obtain ⟨rfl, _⟩ := Prod.mk.inj hrun
        rw [htail, setTail_getElem?, if_pos rfl]
        rfl
  · cases hrun
    rw [hstate]
    rfl

/-- One record of the loop takes two steps: up to the callback, and on from it. -/
theorem resumes_processUpdated {n : Name} {names : List Name} {flag flag' : Bool}
    (hrun : processUpdated P amb n (s, flag) = ((s', flag'), .ok ())) :
    Resumes P ⟨s, [⟨amb, n :: names, none, flag, creates⟩], scan⟩
      ⟨s', [⟨amb, names, none, flag', creates⟩], scan⟩ := by
  unfold processUpdated at hrun
  dsimp only at hrun
  have hstate : (s.tailRecords.insertIfNew n {})[n]?
      = some ((s.tailRecords.insertIfNew n {}).getD n {}) := by
    have hmem : n ∈ s.tailRecords.insertIfNew n {} := by simp
    rw [Std.TreeMap.getD_eq_getD_getElem?]
    obtain ⟨t, ht⟩ := Option.isSome_iff_exists.1 (Std.TreeMap.mem_iff_isSome_getElem?.1 hmem)
    rw [ht]
    rfl
  rcases hconfirm : confirmUpdated P amb n ((s.tailRecords.insertIfNew n {}).getD n {})
      ({ s with tailRecords := s.tailRecords.insertIfNew n {} }, flag) with ⟨st, f | ⟨⟨⟩⟩⟩
  · rw [hconfirm] at hrun
    cases hrun
  · rw [hconfirm] at hrun
    cases hrun
    have hrefSet := confirmUpdated_refSet hstate hconfirm
    have hremove : removeUpdated P n (st.1.tailRecords.getD n {}) st.1
        = removeUpdated P n ((s.tailRecords.insertIfNew n {}).getD n {}) st.1 := by
      rw [removeUpdated, removeUpdated, hrefSet]
    obtain ⟨callback, hvisit⟩ : ∃ callback,
        visitUpdated P amb n (s, flag) = ((st.1, st.2), .ok callback) := by
      unfold visitUpdated
      simp only [hconfirm]
      exact ⟨_, rfl⟩
    have henter : resume P ⟨s, [⟨amb, n :: names, none, flag, creates⟩], scan⟩
        = .ok ⟨st.1, [⟨amb, names, some ⟨n, callback, true⟩, st.2, creates⟩], scan⟩ := by
      simp only [resume, enterVisit, hvisit]
    refine (Resumes.step henter).trans (Resumes.step ?_)
    simp only [resume, leaveVisit, if_true, hremove, List.map_nil]

/-- The whole loop. -/
theorem resumes_processAll {names : List Name} {flag flag' : Bool}
    (hrun : Outcome.forEach (processUpdated P amb) names (s, flag) = ((s', flag'), .ok ())) :
    Resumes P ⟨s, [⟨amb, names, none, flag, creates⟩], scan⟩
      ⟨s', [⟨amb, [], none, flag', creates⟩], scan⟩ := by
  induction names generalizing s flag with
  | nil =>
      cases hrun
      exact Relation.ReflTransGen.refl
  | cons n names ih =>
      rcases hstep : processUpdated P amb n (s, flag) with ⟨st, f | ⟨⟨⟩⟩⟩
      · rw [Outcome.forEach_cons_error hstep] at hrun
        cases hrun
      · rw [Outcome.forEach_cons_ok hstep] at hrun
        exact (resumes_processUpdated hstep).trans (ih hrun)

/-- The point behind a call of `addToTailingRecord`. -/
def added (amb : Ambient) (creates : Bool) (s : LedgerImpl σ) (scan : Option Scan) : Machine σ :=
  (⟨if creates then (sendSyncInterest amb s).1 else s, [], scan⟩ : Machine σ).erased

/-- **`addToTailingRecord` with callbacks that append nothing.** -/
theorem resumes_addToTailingRecord
    (hrun : addToTailingRecord P amb record endorseVerified s = (s', .ok ())) :
    (enterTailing P amb record endorseVerified s = (s, .ok none) ∧ s' = s) ∨
      ∃ s₁ names, enterTailing P amb record endorseVerified s = (s₁, .ok (some names)) ∧
        ∀ creates scan, Resumes P ⟨s₁, [⟨amb, names, none, false, creates⟩], scan⟩
          (added amb creates s' scan) := by
  unfold addToTailingRecord at hrun
  unfold enterTailing
  split_ifs at hrun ⊢ with hcontains
  · cases hrun
    exact Or.inl ⟨rfl, rfl⟩
  right
  dsimp only at hrun ⊢
  rcases hwalk : weightWalk P record ((insertRecord P amb record endorseVerified s).tailRecords.size
      + 1) (walkStart P record endorseVerified (insertRecord P amb record endorseVerified s))
    with ⟨w, f | ⟨⟨⟩⟩⟩
  · simp only [hwalk] at hrun
    cases hrun
  simp only [hwalk] at hrun
  rcases hloop : Outcome.forEach (processUpdated P amb) w.updatedRecords.toList (w.ledger, false)
    with ⟨⟨s₂, flag⟩, f | ⟨⟨⟩⟩⟩
  · simp only [hloop] at hrun
    cases hrun
  simp only [hloop] at hrun
  rcases hreferences : updateReferences P (s₂.tailRecords.size + 1) (s₂, flag)
    with ⟨s₃, f | ⟨⟨⟩⟩⟩
  · simp only [hreferences] at hrun
    cases hrun
  simp only [hreferences] at hrun
  cases hrun
  refine ⟨w.ledger, w.updatedRecords.toList, rfl, fun creates scan => ?_⟩
  refine (resumes_processAll hloop).trans (Resumes.step ?_)
  simp only [resume, pop, leaveTailing, hreferences, List.map_nil, added]

/-! ## The loop over the sync stack -/

/-- **One pass over the sync stack.** -/
theorem resumes_scanStack {before rest : List (Record × Int)} (stackSize : Nat)
    (hrun : scanStack P amb before rest s = (s', .ok ())) :
    ∃ before', Resumes P ⟨s, [], some ⟨amb, before, rest, stackSize⟩⟩
      ⟨s', [], some ⟨amb, before', [], stackSize⟩⟩ := by
  induction rest generalizing before s with
  | nil =>
      cases hrun
      exact ⟨before, Relation.ReflTransGen.refl⟩
  | cons it rest ih =>
      rw [scanStack] at hrun
      rcases hcheck : checkRecordAncestor P amb it.1 s with ⟨s₁, f | _ | _⟩
      · rw [hcheck] at hrun
        cases hrun
      · obtain ⟨rfl, hready⟩ := checkRecordAncestor_ok_false hcheck
        rw [hcheck] at hrun
        dsimp only at hrun
        split_ifs at hrun with hlate
        all_goals
          obtain ⟨before', hrest⟩ := ih hrun
          refine ⟨before', (Resumes.step ?_).trans hrest⟩
        · simp only [resume, scanNext, hready, if_pos hlate]
          rfl
        · simp only [resume, scanNext, hready, if_neg hlate]
      · obtain ⟨data, endorseVerified, hready, hdata, hendorse, hadd⟩ :=
          checkRecordAncestor_ok_true hcheck
        rw [hcheck] at hrun
        obtain ⟨before', hrest⟩ := ih hrun
        refine ⟨before', Relation.ReflTransGen.trans ?_ hrest⟩
        rcases resumes_addToTailingRecord hadd with ⟨henter, rfl⟩ | ⟨s₂, names, henter, hloop⟩
        · refine Resumes.step ?_
          simp only [resume, scanNext, hready, hdata, hendorse, henter]
          rfl
        · refine (Resumes.step ?_).trans (hloop false (some ⟨amb, before, it :: rest, stackSize⟩))
          simp only [resume, scanNext, hready, hdata, hendorse, henter, push]

/-- **The passes over the sync stack**, from the end of one. Each pass but the last makes the stack
shorter, so the fuel suffices. -/
theorem resumes_rescanStack {fuel : Nat} {before : List (Record × Int)} {stackSize : Nat}
    (hfuel : s.syncStack.length < fuel)
    (hrun : rescanStack P amb fuel (some stackSize) s = (s', .ok ())) :
    Resumes P ⟨s, [], some ⟨amb, before, [], stackSize⟩⟩ ⟨s', [], none⟩ := by
  induction fuel generalizing before stackSize s with
  | zero => exact absurd hfuel (Nat.not_lt_zero _)
  | succ fuel ih =>
      rw [rescanStack] at hrun
      split_ifs at hrun with hsize
      · cases hrun
        refine Resumes.step ?_
        simp only [resume, scanNext, Option.some.inj hsize, if_true]
      · rw [Option.some.injEq] at hsize
        rcases hscan : scanStack P amb [] s.syncStack s with ⟨s₁, f | ⟨⟨⟩⟩⟩
        · rw [hscan] at hrun
          cases hrun
        rw [hscan] at hrun
        dsimp only at hrun
        obtain ⟨before', hpass⟩ := resumes_scanStack s.syncStack.length hscan
        have hnext : Resumes P ⟨s, [], some ⟨amb, before, [], stackSize⟩⟩
            ⟨s₁, [], some ⟨amb, before', [], s.syncStack.length⟩⟩ := by
          refine (Resumes.step ?_).trans hpass
          simp only [resume, scanNext, if_neg hsize]
        refine hnext.trans ?_
        obtain ⟨hle, hsame⟩ := scanStack_length rfl hscan
        by_cases heq : s₁.syncStack.length = s.syncStack.length
        · -- nothing has changed: the next test ends the loop
          have hdone : s' = s₁ := by
            cases fuel with
            | zero => cases hrun; rfl
            | succ fuel =>
                rw [rescanStack, if_pos (by rw [heq])] at hrun
                cases hrun
                rfl
          subst hdone
          refine Resumes.step ?_
          simp only [resume, scanNext, heq, if_true]
        · exact ih (by omega) hrun

/-! ## Whole calls -/

/-- **Where no callback appends, a call that returns is what the machine does.** -/
theorem call_resumes {c : Call} (hrun : LedgerImpl.call P c s = (s', .ok ())) :
    ∃ m, advance P (.call c) ⟨s, [], none⟩ = .ok m ∧ Resumes P m ⟨s', [], none⟩ := by
  cases c with
  | createRecord amb record =>
      simp only [LedgerImpl.call, createRecord] at hrun
      rcases hbuild : buildRecord P amb record s with ⟨record', f | code | data⟩
      · simp only [hbuild] at hrun
        cases hrun
      · simp only [hbuild] at hrun
        cases hrun
        refine ⟨⟨s, [], none⟩, ?_, Relation.ReflTransGen.refl⟩
        simp [advance, invoke, idle, create, hbuild]
      simp only [hbuild] at hrun
      rcases hadd : addToTailingRecord P amb { record' with data := some data } true s
        with ⟨s₁, f | ⟨⟨⟩⟩⟩
      · simp only [hadd] at hrun
        cases hrun
      have hsend : s' = (sendSyncInterest amb s₁).1 := by
        simp only [hadd] at hrun
        rcases hsync : sendSyncInterest amb s₁ with ⟨s₂, _ | _ | _ | _⟩ <;>
          · simp only [hsync] at hrun
            cases hrun
            rfl
      -- the record is there already, or the machine enters the loop and runs it to its end
      rcases resumes_addToTailingRecord hadd with ⟨henter, rfl⟩ | ⟨s₂, names, henter, hloop⟩
      · refine ⟨⟨s', [], none⟩, ?_, Relation.ReflTransGen.refl⟩
        simp [advance, invoke, idle, create, hbuild, henter, hsend]
      · refine ⟨⟨s₂, [⟨amb, names, none, false, true⟩], none⟩, ?_, ?_⟩
        · simp [advance, invoke, idle, create, push, hbuild, henter]
        · have hend : added amb true s₁ none = (⟨s', [], none⟩ : Machine σ) := by
            rw [hsend]
            rfl
          rw [← hend]
          exact hloop true none
  | onFetchedRecord amb data =>
      simp only [LedgerImpl.call, onFetchedRecord] at hrun
      have hinvoke : advance P (.call (.onFetchedRecord amb data)) ⟨s, [], none⟩
          = receive P amb data ⟨s, [], none⟩ := by
        simp [advance, invoke, idle]
      rw [hinvoke, receive]
      dsimp only
      split_ifs at hrun ⊢ with hseen hstacked
      · cases hrun
        exact ⟨_, rfl, Relation.ReflTransGen.refl⟩
      · cases hrun
        exact ⟨_, rfl, Relation.ReflTransGen.refl⟩
      · rcases hreceive : receiveRecord P amb data s with ⟨s₁, f | _ | _⟩
        · simp only [hreceive] at hrun
          cases hrun
        · simp only [hreceive] at hrun
          cases hrun
          exact ⟨_, rfl, Relation.ReflTransGen.refl⟩
        · simp only [hreceive] at hrun
          refine ⟨_, rfl, ?_⟩
          -- the first test of the loop never ends it, as no size was recorded
          rw [rescanStack, if_neg (by simp)] at hrun
          rcases hscan : scanStack P amb [] s₁.syncStack s₁ with ⟨s₂, f | ⟨⟨⟩⟩⟩
          · rw [hscan] at hrun
            cases hrun
          rw [hscan] at hrun
          obtain ⟨before', hpass⟩ := resumes_scanStack s₁.syncStack.length hscan
          have hle := (scanStack_length rfl hscan).1
          exact hpass.trans (resumes_rescanStack (by omega) hrun)
  | onLedgerSyncRequest amb interest | onRecordRequest amb interest | sendSyncInterest amb =>
      refine ⟨⟨s', [], none⟩, ?_, Relation.ReflTransGen.refl⟩
      simp [advance, invoke, idle, hrun]

end Machine

end DLedger
