import DLedger.Ledger.Core

set_option autoImplicit false

/-! # The weights of the tail, whatever the thresholds are

The loop over the updated records looks at a record each time its weight has grown by one, so a
record leaves the tail for its weight as soon as that is `leaveWeight`, and it is confirmed on its
way there unless `confirmWeight` is `0` or above. This needs neither sensible weights nor writes
that succeed.
-/

namespace DLedger

open Tlv (Bytes Block)

/-- The weight with which a record leaves the tail: it has at least one producer when the loop
compares it with `removeWeight`. -/
def Config.leaveWeight (config : Config) : Nat := max 1 config.removeWeight

/-- Records are confirmed before they leave the tail for their weight. -/
def Config.Confirms (config : Config) : Prop :=
  1 ≤ config.confirmWeight ∧ config.confirmWeight ≤ config.leaveWeight

namespace LedgerImpl

variable {σ : Type} {P : Peer σ} {amb : Ambient} {received : Data → Prop} {s s' : LedgerImpl σ}
  {record : Record} {endorseVerified : Bool} {n : Name} {marked : Finset Name}
  {names : List Name} {mid : TailMap}

/-- What stays in the tail is lighter than `leaveWeight`, and what has reached `confirmWeight` there
has been confirmed. -/
structure Light (P : Peer σ) (s : LedgerImpl σ) : Prop where
  light : P.removesDeep = true → ∀ (n : Name) (t : TailingRecordState),
    s.tailRecords[n]? = some t → t.refSet.card < P.config.leaveWeight
  confirmed : 1 ≤ P.config.confirmWeight → ∀ (n : Name) (t : TailingRecordState),
    s.tailRecords[n]? = some t → P.config.confirmWeight ≤ t.refSet.card →
      t.record ∈ s.confirmations
  unconfirmed : P.removesDeep = true → ¬ P.config.Confirms → s.confirmations = []

theorem Light.congr (hs : Light P s) (htail : s'.tailRecords = s.tailRecords)
    (hconfirmations : s'.confirmations = s.confirmations) : Light P s' := by
  refine ⟨?_, ?_, ?_⟩
  · rw [htail]; exact hs.light
  · rw [htail, hconfirmations]; exact hs.confirmed
  · rw [hconfirmations]; exact hs.unconfirmed

theorem Light.withLog (hs : Light P s) {events : List Event} (hquiet : ∀ e ∈ events, e.IsQuiet) :
    Light P { s with log := events ++ s.log } := by
  refine hs.congr rfl ?_
  have hnone : events.filterMap Event.confirmation? = [] :=
    List.filterMap_eq_nil_iff.2 fun e he => (hquiet e he).2
  rw [confirmations, List.filterMap_append, hnone]
  rfl

/-! ## Additions -/

/-- The weights after the walk: a record has one producer more if it is marked, and else it is
new or as it was. -/
theorem Added.weight_cases (h : Added P amb record endorseVerified n s s' marked names mid)
    {x : Name} {t' : TailingRecordState}
    (ht' : walked amb record endorseVerified n s.tailRecords.lookup marked x = some t') :
    (x ∉ marked ∧ (t'.refSet.card = 0 ∨ s.tailRecords[x]? = some t')) ∨
      x ∈ marked ∧ ∃ t, s.tailRecords[x]? = some t ∧ t'.record = t.record ∧
        t'.refSet.card = t.refSet.card + 1 := by
  rcases h.walked_cases ht' with ⟨rfl, rfl⟩ | ⟨_, t, ht, rfl⟩
  · exact Or.inl ⟨h.notMem_self, Or.inl Finset.card_empty⟩
  · by_cases hx : x ∈ marked
    · rw [if_pos hx]
      exact Or.inr ⟨hx, t, ht, rfl, h.card_of_mem hx ht⟩
    · rw [if_neg hx]
      exact Or.inl ⟨hx, Or.inr ht⟩

/-- What the loop removes has reached `leaveWeight`. -/
theorem Added.leaveWeight_le (h : Added P amb record endorseVerified n s s' marked names mid)
    {x : Name} (hx : x ∈ marked) {t' : TailingRecordState}
    (ht' : walked amb record endorseVerified n s.tailRecords.lookup marked x = some t')
    (hdeep : IsDeep P t') : P.config.leaveWeight ≤ t'.refSet.card := by
  rcases h.weight_cases ht' with ⟨hnx, _⟩ | ⟨_, t, _, _, hcard⟩
  · exact absurd hx hnx
  · exact max_le (by omega) hdeep.2

/-- After the walk no weight is above `leaveWeight`. -/
theorem Light.walked_le (hs : Light P s)
    (h : Added P amb record endorseVerified n s s' marked names mid)
    (hremoves : P.removesDeep = true) {x : Name} {t' : TailingRecordState}
    (ht' : walked amb record endorseVerified n s.tailRecords.lookup marked x = some t') :
    t'.refSet.card ≤ P.config.leaveWeight := by
  rcases h.weight_cases ht' with ⟨_, hzero | ht⟩ | ⟨_, t, ht, _, hcard⟩
  · rw [hzero]
    exact Nat.zero_le _
  · exact (hs.light hremoves x t' ht).le
  · rw [hcard]
    exact hs.light hremoves x t ht

/-- What has reached `confirmWeight` after the walk is confirmed by the end of the call. -/
theorem Light.confirmed_walked (hs : Light P s)
    (h : Added P amb record endorseVerified n s s' marked names mid)
    (hpos : 1 ≤ P.config.confirmWeight) {x : Name} {t' : TailingRecordState}
    (ht' : walked amb record endorseVerified n s.tailRecords.lookup marked x = some t')
    (hc : P.config.confirmWeight ≤ t'.refSet.card) : t'.record ∈ s'.confirmations := by
  rw [h.confirmations_eq, List.mem_append, List.mem_reverse]
  rcases h.weight_cases ht' with ⟨_, hzero | ht⟩ | ⟨hx, t, ht, hrecord, hcard⟩
  · omega
  · exact Or.inr (hs.confirmed hpos x t' ht hc)
  · by_cases hcross : t'.refSet.card = P.config.confirmWeight
    · exact Or.inl (h.mem_confirmedRecords.2 ⟨x, hx, t', ht', hcross, rfl⟩)
    · right
      rw [hrecord]
      exact hs.confirmed hpos x t ht (by omega)

/-- Where records leave the tail before they reach `confirmWeight`, none is confirmed. -/
theorem Light.confirmations_eq_nil (hs : Light P s)
    (h : Added P amb record endorseVerified n s s' marked names mid)
    (hremoves : P.removesDeep = true) (hnever : ¬ P.config.Confirms) : s'.confirmations = [] := by
  have hempty : confirmedRecords P amb record endorseVerified n s marked names = [] := by
    rw [List.eq_nil_iff_forall_not_mem]
    intro r hr
    obtain ⟨x, hx, t', ht', hcross, rfl⟩ := h.mem_confirmedRecords.1 hr
    have hle := hs.walked_le h hremoves ht'
    rcases h.weight_cases ht' with ⟨hnx, _⟩ | ⟨_, t, _, _, hcard⟩
    · exact hnx hx
    · exact hnever ⟨by omega, by omega⟩
  rw [h.confirmations_eq, hempty, hs.unconfirmed hremoves hnever]
  rfl

theorem Light.added (hs : Light P s)
    (h : Added P amb record endorseVerified n s s' marked names mid) : Light P s' := by
  refine ⟨?_, ?_, hs.confirmations_eq_nil h⟩
  · intro hremoves x t' ht'
    obtain ⟨hmid, _⟩ := (h.tail_iff x t').1 ht'
    obtain ⟨hwalked, hstays⟩ := (h.mid_iff x t').1 hmid
    have hpos : 1 ≤ P.config.leaveWeight := le_max_left _ _
    rcases h.weight_cases hwalked with ⟨_, hzero | ht⟩ | ⟨hx, _⟩
    · omega
    · exact hs.light hremoves x t' ht
    · -- a marked record that the loop leaves is not deep
      have hlight : t'.refSet.card < P.config.removeWeight := by
        by_contra hdeep
        exact hstays ⟨hx, hremoves, not_lt.1 hdeep⟩
      exact lt_of_lt_of_le hlight (le_max_right _ _)
  · intro hpos x t' ht' hc
    exact hs.confirmed_walked h hpos (h.walked_of_tail ht') hc

/-! ## Moves and runs -/

/-- A record that is received or resolved keeps the weights in bounds. -/
theorem Light.receiveMove (hs : Light P s) (hcore : LedgerCore P s)
    (h : ReceiveMove P amb received s s') : Light P s' := by
  cases h with
  | @emit e quiet =>
      have hlog : ∀ e' ∈ [e], e'.IsQuiet := by
        intro e' he'
        rw [List.mem_singleton.1 he']
        exact quiet
      exact hs.withLog hlog
  | push receive decoded type_ne unseen unstacked checked => exact hs.congr rfl rfl
  | drop stack late => exact hs.congr rfl rfl
  | @resolve s₁ before rest it data endorseVerified stack ready data_eq endorse added =>
      have hit : it ∈ s.syncStack := by rw [stack]; simp
      obtain ⟨n, marked, names, mid, _, _, h⟩ := hcore.addition_stack hit ready added
      exact (hs.added h.toAdded).congr rfl rfl

theorem Light.move (hs : Light P s) (hcore : LedgerCore P s) (h : Move P amb s s') :
    Light P s' := by
  cases h with
  | receive h => exact hs.receiveMove hcore h
  | create built new added =>
      rcases hcore.tail.created built added with rfl | ⟨_, marked, names, mid, h⟩
      · exact hs
      · exact hs.added h.toAdded

/-- The states within a call. -/
theorem Light.moves (hs : Light P s) (hcore : LedgerCore P s) (h : Moves P amb s s') :
    Light P s' := by
  induction h with
  | refl => exact hs
  | tail hmoves hmove ih => exact ih.move (hcore.moves hmoves) hmove

theorem light_blank (db : Backend) (certManager : σ) : Light P (blank db certManager) := by
  refine ⟨?_, ?_, ?_⟩
  · intro _ n t ht
    simp [blank] at ht
  · intro _ n t ht
    simp [blank] at ht
  · intro _ _
    rfl

theorem Light.onlySends (hs : Light P s) {events : List Event} (h : OnlySends P s s' events) :
    Light P s' := by
  rw [h.eq]
  exact hs.withLog h.quiet

/-- After some of the genesis records. -/
theorem light_addGenesis {db : Backend} {certManager : σ} {k : Nat}
    (h : Outcome.forEach (addGenesis P amb) (List.range k) (blank db certManager) = (s, .ok ())) :
    TailCore P s ∧ Light P s := by
  obtain ⟨hcore, _, hlight⟩ := addGenesis_induction (light_blank db certManager)
    (fun _ _ _ _ _ _ _ ha _ hadded => ha.added hadded.toAdded) h
  exact ⟨hcore, hlight⟩

theorem construct_light {db : Backend} {certManager : σ}
    (h : construct P amb db certManager = (s, .ok ())) : Light P s := by
  obtain ⟨_, s₁, hrun, rfl⟩ := construct_ok h
  obtain ⟨events, hsends⟩ := sendSyncInterest_sends P amb s₁
  exact (light_addGenesis hrun).2.onlySends hsends

/-- **In every run whose calls return the weights are in bounds.** -/
theorem RunsTo.light {db : Backend} {certManager : σ}
    (h : RunsTo P db certManager (ReturnsNew P) s) : Light P s := by
  induction h with
  | start hstart => exact construct_light hstart
  | call h hc ih => exact ih.moves h.core (hc.1.moves (Outcome.eq_of_returns hc.2))

end LedgerImpl

end DLedger
