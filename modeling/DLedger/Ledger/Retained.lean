import DLedger.Ledger.Light
import DLedger.Ledger.Stored

set_option autoImplicit false

/-! # What is kept when writes fail

`onRecordConfirmed` does not look at the result of `putRecord`, so a confirmed record that was not
written is left in the tail alone, and `addToTailingRecord` erases it when its weight reaches
`removeWeight`. While no addition erases an unwritten record, every confirmed record is either a
tailing record or in the database.
-/

namespace DLedger

open Tlv (Bytes Block)

namespace LedgerImpl

variable {σ : Type} {P : Peer σ} {amb : Ambient} {s s' : LedgerImpl σ} {record : Record}
  {endorseVerified : Bool} {n : Name} {marked : Finset Name} {names : List Name} {mid : TailMap}

/-! ## Safe additions -/

/-- Adding an endorsed record loses nothing: each tailing record that counts its producer from now
on, and that has the weight to be confirmed and to be removed then, is stored already, or it
reaches `confirmWeight` now and is written. -/
def SafeAddition (P : Peer σ) (amb : Ambient) (record : Record) (s : LedgerImpl σ) : Prop :=
  let n := record.getRecordName P.ndn
  ∀ (x : Name) (t : TailingRecordState), s.tailRecords[x]? = some t →
    Marks (insertedLookup s.tailRecords.lookup n (newEntry amb record true))
      (RecordName.getProducerPrefix n) n x →
    P.config.confirmWeight ≤ t.refSet.card + 1 →
    P.removesDeep = true → P.config.removeWeight ≤ t.refSet.card + 1 →
      (∃ d, s.backend.getRecord P.ndn x = some d) ∨
        t.refSet.card + 1 = P.config.confirmWeight ∧ amb.putOk x = true

/-- A move whose addition, if it is one of an endorsed record, is safe. -/
def SafeMove (P : Peer σ) (amb : Ambient) (s s' : LedgerImpl σ) : Prop :=
  ∀ record, s'.insertions = (record, true) :: s.insertions → SafeAddition P amb record s

/-- The moves of a call, all of them safe. -/
abbrev SafeMoves (P : Peer σ) (amb : Ambient) : LedgerImpl σ → LedgerImpl σ → Prop :=
  Relation.ReflTransGen fun s s' => Move P amb s s' ∧ SafeMove P amb s s'

/-- A call that returns after safe moves, and creates new packets only. -/
def SafeCall (P : Peer σ) (s : LedgerImpl σ) (c : Call) : Prop :=
  ReturnsNew P s c ∧ SafeMoves P c.ambient s (call P c s).1

theorem SafeMoves.moves (h : SafeMoves P amb s s') : Moves P amb s s' :=
  Relation.ReflTransGen.mono (fun _ _ hmove => hmove.1) s s' h

/-- Where records are confirmed before they leave the tail, an addition is safe exactly when what it
removes is stored by its end. -/
theorem Added.safeAddition_iff (h : Added P amb record true n s s' marked names mid)
    (hn : record.getRecordName P.ndn = n)
    (hleave : P.removesDeep = true → P.config.confirmWeight ≤ P.config.leaveWeight) :
    SafeAddition P amb record s ↔ StoresDeep P amb record true n s s' marked := by
  subst hn
  constructor
  · intro hsafe x hx t' ht' hdeep
    obtain ⟨_, _, _, t, ht, _⟩ := h.exists_of_mem hx
    have hcard := h.card_of_mem hx ht
    have hheavy := (hleave hdeep.1).trans (h.leaveWeight_le hx ht' hdeep)
    rw [h.walked_of_mem hx ht] at ht'
    cases ht'
    rw [IsDeep, hcard] at hdeep
    rw [hcard] at hheavy
    rw [h.stored_iff]
    rcases hsafe x t ht ((h.mem_marked x).1 hx).2 hheavy hdeep.1 hdeep.2 with hd | ⟨hcross, hput⟩
    · exact Or.inl hd
    · exact Or.inr ⟨hput, hx, _, h.walked_of_mem hx ht, hcard.trans hcross⟩
  · intro hstores x t ht hm _ hremoves hremove
    have hx := (h.mem_marked x).2 ⟨rfl, hm⟩
    have hcard := h.card_of_mem hx ht
    have hwalked := h.walked_of_mem hx ht
    rcases h.stored_iff.1 (hstores x hx _ hwalked ⟨hremoves, hcard ▸ hremove⟩) with
      hd | ⟨hput, _, t', ht', hcross⟩
    · exact Or.inl hd
    · rw [hwalked] at ht'
      cases ht'
      exact Or.inr ⟨hcard.symm.trans hcross, hput⟩

/-- A record that is not endorsed removes nothing. -/
theorem Added.storesDeep_of_unendorsed
    (h : Added P amb record false n s s' marked names mid) :
    StoresDeep P amb record false n s s' marked := by
  intro x hx
  have he := (h.exists_of_mem hx).1
  cases he

/-! ## The invariant -/

/-- The tail is held, what is stored and still in the tail has been confirmed and is stored as it
is, and a confirmed record is in the tail or in the database. -/
structure Retained (P : Peer σ) (s : LedgerImpl σ) : Prop where
  tail : TailHeld P s
  heavy : ∀ (n : Name) (t : TailingRecordState) (d : Data), s.tailRecords[n]? = some t →
    s.backend.getRecord P.ndn n = some d →
    P.config.confirmWeight ≤ t.refSet.card ∧ t.record.data = some d
  kept : ∀ r ∈ s.confirmations, ∃ n, Record.Named P.ndn n r ∧
    ((∃ t, s.tailRecords[n]? = some t ∧ t.record = r ∧ P.config.confirmWeight ≤ t.refSet.card) ∨
      s.backend.getRecord P.ndn n = r.data)

theorem Retained.congr (hs : Retained P s) (h : SameRecords s s') : Retained P s' := by
  refine ⟨hs.tail.congr h.tailRecords h.backend, ?_, ?_⟩
  · rw [h.tailRecords, h.backend]; exact hs.heavy
  · rw [h.confirmations, h.tailRecords, h.backend]; exact hs.kept

/-- After the walk, a tailing record that is stored by the end of the call has reached
`confirmWeight`, and is stored as it is. -/
theorem Retained.stored_walked (hs : Retained P s)
    (h : Inserted P amb record endorseVerified n s s' marked names mid) {x : Name}
    {t' : TailingRecordState} {d : Data}
    (ht' : walked amb record endorseVerified n s.tailRecords.lookup marked x = some t')
    (hx : s'.backend.getRecord P.ndn x = some d) :
    P.config.confirmWeight ≤ t'.refSet.card ∧ t'.record.data = some d := by
  rcases h.backend_cases hx with ⟨u, ⟨_, hu, hc⟩, hd⟩ | hx
  · rw [ht'] at hu
    cases hu
    exact ⟨hc.ge, hd⟩
  · rcases h.walked_cases ht' with ⟨rfl, rfl⟩ | ⟨_, t, ht, rfl⟩
    · rw [h.unstored] at hx
      cases hx
    · obtain ⟨hc, hd⟩ := hs.heavy x t d ht hx
      rw [ite_mark_record]
      exact ⟨hc.trans (card_le_ite_mark _ _ _), hd⟩

/-- What is stored stays as it is. -/
theorem Retained.backend_eq (hs : Retained P s)
    (h : Added P amb record endorseVerified n s s' marked names mid) {x : Name} {d : Data}
    (hx : s.backend.getRecord P.ndn x = some d) : s'.backend.getRecord P.ndn x = some d := by
  obtain ⟨d', hd'⟩ := h.backend_mono hx
  rcases h.backend_cases hd' with ⟨t, hcross, _⟩ | hd
  · -- a tailing record that is stored does not cross again
    obtain ⟨u, hu, _, hlt⟩ := h.of_crosses hcross
    exact absurd (hs.heavy x u d hu hx).1 (Nat.not_le.2 hlt)
  · rw [hx] at hd
    rw [hd', hd]

/-- What has reached `confirmWeight` after the walk stays in the tail, or it is stored as it is. -/
theorem Retained.kept_walked (hs : Retained P s)
    (h : Inserted P amb record endorseVerified n s s' marked names mid)
    (hstores : StoresDeep P amb record endorseVerified n s s' marked) {x : Name}
    {t' : TailingRecordState}
    (ht' : walked amb record endorseVerified n s.tailRecords.lookup marked x = some t')
    (hc : P.config.confirmWeight ≤ t'.refSet.card) :
    s'.tailRecords[x]? = some t' ∨ s'.backend.getRecord P.ndn x = t'.record.data := by
  rcases h.tail_or ht' with htail | ⟨hx, hdeep⟩ | ⟨hmid, hevicted⟩
  · exact Or.inl htail
  · obtain ⟨d, hd⟩ := hstores x hx t' ht' hdeep
    exact Or.inr (hd.trans (hs.stored_walked h ht' hd).2.symm)
  · exact absurd hevicted (h.not_evicted (h.sound hs.tail.sound h.ready h.genesis) hmid hc)

/-- **An insertion that removes stored records only keeps the invariant.** -/
theorem Retained.inserted (hs : Retained P s)
    (h : Inserted P amb record endorseVerified n s s' marked names mid)
    (hstores : StoresDeep P amb record endorseVerified n s s' marked) : Retained P s' where
  tail := hs.tail.added h.ready h.genesis h.held h.toAdded hstores
  heavy x t' d ht' hx := hs.stored_walked h (h.walked_of_tail ht') hx
  kept r hr := by
    -- in the tail after the walk, with the weight of a confirmed record
    have hwalked : ∀ x t',
        walked amb record endorseVerified n s.tailRecords.lookup marked x = some t' →
        t'.record = r → P.config.confirmWeight ≤ t'.refSet.card →
        ∃ x, Record.Named P.ndn x r ∧ ((∃ t, s'.tailRecords[x]? = some t ∧ t.record = r ∧
          P.config.confirmWeight ≤ t.refSet.card) ∨ s'.backend.getRecord P.ndn x = r.data) := by
      rintro x t' ht' rfl hc
      refine ⟨x, h.named x t' ht', ?_⟩
      rcases hs.kept_walked h hstores ht' hc with htail | hback
      · exact Or.inl ⟨t', htail, rfl, hc⟩
      · exact Or.inr hback
    rw [h.confirmations_eq, List.mem_append, List.mem_reverse] at hr
    rcases hr with hr | hr
    · obtain ⟨x, _, t', ht', hcross, hrecord⟩ := h.mem_confirmedRecords.1 hr
      exact hwalked x t' ht' hrecord hcross.ge
    · obtain ⟨x, hx, ⟨t, ht, hrecord, hc⟩ | hback⟩ := hs.kept r hr
      · have hne : n ≠ x := by
          rintro rfl
          rw [h.ready.fresh] at ht
          cases ht
        refine hwalked x _ (by rw [Added.walked_of_ne hne, ht]; rfl) ?_
          (hc.trans (card_le_ite_mark _ _ _))
        rw [ite_mark_record]
        exact hrecord
      · obtain ⟨d, hd, _⟩ := hx.exists_data
        rw [hd] at hback
        exact ⟨x, hx, Or.inr ((hs.backend_eq h.toAdded hback).trans hd.symm)⟩

/-! ## Moves -/

theorem safeMove_of_same (h : SameRecords s s') : SafeMove P amb s s' := by
  intro r hr
  rw [h.insertions] at hr
  exact absurd (congrArg List.length hr) (by simp)

section Moves

variable (hleave : P.removesDeep = true → P.config.confirmWeight ≤ P.config.leaveWeight)
include hleave

/-- A move that inserts a record is safe exactly when what it removes is stored. -/
theorem Inserted.safeMove_iff {s₁ : LedgerImpl σ}
    (h : Inserted P amb record endorseVerified n s s₁ marked names mid)
    (hsame : SameRecords s₁ s') :
    SafeMove P amb s s' ↔ StoresDeep P amb record endorseVerified n s s₁ marked := by
  have hlog : s'.insertions = (record, endorseVerified) :: s.insertions :=
    hsame.insertions.trans h.insertions_eq
  cases endorseVerified with
  | false =>
      refine ⟨fun _ => h.toAdded.storesDeep_of_unendorsed, fun _ r hr => ?_⟩
      rw [hlog] at hr
      cases hr
  | true =>
      rw [← h.toAdded.safeAddition_iff h.ready.named.getRecordName hleave]
      constructor
      · intro hsafe
        exact hsafe record hlog
      · intro hsafe r hr
        rw [hlog] at hr
        cases hr
        exact hsafe

/-- **A safe move keeps the invariant.** -/
theorem Retained.move (hs : Retained P s) (hcore : LedgerCore P s) (h : Move P amb s s')
    (hsafe : SafeMove P amb s s') : Retained P s' := by
  have hheld : LedgerHeld P s := ⟨hs.tail, hcore.stack⟩
  rcases hheld.move_cases h with hsame | ⟨_, _, _, _, _, _, _, hins, hsame⟩
  · exact hs.congr hsame
  · exact (hs.inserted hins ((hins.safeMove_iff hleave hsame).1 hsafe)).congr hsame

theorem Retained.moves (hs : Retained P s) (hcore : LedgerCore P s) (h : SafeMoves P amb s s') :
    Retained P s' := by
  induction h with
  | refl => exact hs
  | tail hmoves hmove ih =>
      exact ih.move hleave (hcore.moves (SafeMoves.moves hmoves)) hmove.1 hmove.2

/-- **A move that is not safe loses a confirmed record**: `getRecord` does not find it any more. -/
theorem Retained.lost (hs : Retained P s) (hcore : LedgerCore P s) (hlight : Light P s)
    (hpos : 1 ≤ P.config.confirmWeight) (h : Move P amb s s') (hloses : ¬ SafeMove P amb s s') :
    ∃ r ∈ s'.confirmations, s'.getRecord P (r.getRecordName P.ndn) = .ok none := by
  have hheld : LedgerHeld P s := ⟨hs.tail, hcore.stack⟩
  rcases hheld.move_cases h with hsame | ⟨_, _, _, s₁, _, _, _, hins, hsame⟩
  · exact absurd (safeMove_of_same hsame) hloses
  rw [hins.safeMove_iff hleave hsame] at hloses
  simp only [StoresDeep, not_forall] at hloses
  obtain ⟨x, hx, t, ht, hdeep, hunstored⟩ := hloses
  have hback : s₁.backend.getRecord P.ndn x = none :=
    Option.eq_none_iff_forall_not_mem.2 fun d hd => hunstored ⟨d, hd⟩
  have htail : s₁.tailRecords[x]? = none := by
    cases hu : s₁.tailRecords[x]? with
    | none => rfl
    | some u =>
        obtain ⟨hwalked, hstays⟩ := (hins.mid_iff x u).1 ((hins.tail_iff x u).1 hu).1
        rw [ht] at hwalked
        cases hwalked
        exact absurd ⟨hx, hdeep⟩ hstays
  have hheavy := (hleave hdeep.1).trans (hins.leaveWeight_le hx ht hdeep)
  refine ⟨t.record, ?_, ?_⟩
  · rw [hsame.confirmations]
    exact hlight.confirmed_walked hins.toAdded hpos ht hheavy
  · rw [(hins.named x t ht).getRecordName]
    simp only [getRecord, hsame.tailRecords, hsame.backend, htail, hback]

end Moves

/-! ## Runs -/

theorem retained_blank (certManager : σ) : Retained P (blank Backend.empty certManager) := by
  refine ⟨(genesisPhase_blank Backend.empty certManager).inv.tailHeld, ?_, ?_⟩
  · intro n t d _ hd
    rw [blank, Backend.getRecord_empty] at hd
    cases hd
  · intro r hr
    cases hr

/-- The genesis records have no pointers, so adding them confirms and removes none. -/
theorem retained_addGenesis {certManager : σ} {k : Nat}
    (h : Outcome.forEach (addGenesis P amb) (List.range k) (blank Backend.empty certManager)
      = (s, .ok ())) : Retained P s := by
  refine (Outcome.forEach_ok_invariant (fun s => Retained P s ∧
    (∀ (n : Name) (t : TailingRecordState), s.tailRecords[n]? = some t →
      t.record.recordPointers = []) ∧ ∀ n, s.backend.getRecord P.ndn n = none)
    (fun i _ a b ha hab => ?_) ⟨retained_blank certManager, ?_, ?_⟩ h).1
  · obtain ⟨hs, hpointerless, hempty⟩ := ha
    obtain ⟨record, n, _, _, ⟨rfl, _⟩ | ⟨marked, names, mid, _, hpointers, hready, hadded⟩⟩ :=
      addGenesis_added hs.tail.sound hpointerless hab
    · exact ⟨hs, hpointerless, hempty⟩
    have hnone : marked = ∅ := hadded.marked_eq_empty hpointers
    have hins : Inserted P amb record true n a b marked names mid :=
      ⟨hadded, hready, hempty n, by simp [hpointers], fun _ _ => hpointers⟩
    refine ⟨hs.inserted hins (by simp [StoresDeep, hnone]), ?_, ?_⟩
    · intro x t' ht'
      rcases hadded.walked_cases (hadded.walked_of_tail ht') with ⟨rfl, rfl⟩ | ⟨_, t, ht, rfl⟩
      · exact hpointers
      · rw [ite_mark_record]
        exact hpointerless x t ht
    · intro x
      exact hadded.unstored_of_pointerless hpointers (hempty x)
  · intro n t ht
    simp [blank] at ht
  · intro n
    exact Backend.getRecord_empty _ _

theorem construct_retained {certManager : σ}
    (h : construct P amb Backend.empty certManager = (s, .ok ())) : Retained P s := by
  obtain ⟨_, s₁, hrun, rfl⟩ := construct_ok h
  exact (retained_addGenesis hrun).congr (sendSyncInterest_sameRecords s₁)

theorem RunsTo.returnsNew {db : Backend} {certManager : σ}
    (h : RunsTo P db certManager (SafeCall P) s) : RunsTo P db certManager (ReturnsNew P) s :=
  h.mono fun _ _ hc => hc.1

/-- **In every run whose additions are safe nothing confirmed is lost.** -/
theorem RunsTo.retained {certManager : σ}
    (hleave : P.removesDeep = true → P.config.confirmWeight ≤ P.config.leaveWeight)
    (h : RunsTo P Backend.empty certManager (SafeCall P) s) : Retained P s := by
  induction h with
  | start h => exact construct_retained h
  | call h hc ih => exact ih.moves hleave h.returnsNew.core hc.2

end LedgerImpl

end DLedger
