import DLedger.Ledger.Run

set_option autoImplicit false

/-! # The invariant of the database

A ledger that starts on an empty database stores a record when it confirms it, so the
database is closed under pointers and agrees with the log of confirmations. The heart is
`below`: when a confirmed record has left the tail, so have the records it points to. For a
confirmed record is never evicted, and a deep record points to deep records.
-/

namespace DLedger

open Tlv (Bytes Block)

namespace LedgerImpl

variable {σ : Type} {P : Peer σ} {amb : Ambient} {s s' : LedgerImpl σ} {record : Record}
  {endorseVerified : Bool} {n : Name} {marked : Finset Name} {names : List Name} {mid : TailMap}

structure Stored (P : Peer σ) (s : LedgerImpl σ) : Prop where
  decoded : ∀ (n : Name) (d : Data), s.backend.getRecord P.ndn n = some d →
    ∃ r, Record.ofData P.ndn d = .ok r ∧ P.ndn.fullName d = n ∧
      ∀ p ∈ r.recordPointers, ∃ d', s.backend.getRecord P.ndn p = some d'
  heavy : ∀ (n : Name) (t : TailingRecordState) (d : Data), s.tailRecords[n]? = some t →
    s.backend.getRecord P.ndn n = some d → P.config.confirmWeight ≤ t.refSet.card
  below : ∀ (n : Name) (d : Data) (r : Record), s.backend.getRecord P.ndn n = some d →
    Record.ofData P.ndn d = .ok r → s.tailRecords[n]? = none →
    ∀ p ∈ r.recordPointers, s.tailRecords[p]? = none
  confirmed : ∀ r ∈ s.confirmations, ∃ n, Record.Named P.ndn n r ∧
    s.backend.getRecord P.ndn n = r.data
  once : ∀ n, (s.confirmations.map fun r => r.getRecordName P.ndn).count n
    = if (s.backend.getRecord P.ndn n).isSome then 1 else 0

/-! ## Crossing -/

/-- A call makes a record cross `confirmWeight`. -/
def Crosses (P : Peer σ) (amb : Ambient) (record : Record) (endorseVerified : Bool) (n : Name)
    (s : LedgerImpl σ) (marked : Finset Name) (x : Name) (t : TailingRecordState) : Prop :=
  x ∈ marked ∧ walked amb record endorseVerified n s.tailRecords.lookup marked x = some t ∧
    t.refSet.card = P.config.confirmWeight

/-- A record of the database was there before, or it is a tailing record that crosses. -/
theorem Added.backend_cases (h : Added P amb record endorseVerified n s s' marked names mid)
    {x : Name} {d : Data} (hx : s'.backend.getRecord P.ndn x = some d) :
    (∃ t, Crosses P amb record endorseVerified n s marked x t ∧ t.record.data = some d) ∨
      s.backend.getRecord P.ndn x = some d := by
  rw [h.rest, withTail_backend] at hx
  rcases confirmAll_getRecord_cases P amb hx with hs | ⟨r, hr, hd, rfl⟩
  · exact Or.inr hs
  · obtain ⟨y, hy, t, ht, hc, rfl⟩ := h.mem_confirmedRecords.1 hr
    have hname : P.ndn.fullName d = y := ((h.named y t ht).ofData_eq hd).2
    exact Or.inl ⟨t, hname ▸ ⟨hy, ht, hc⟩, hd⟩

/-- A record that crosses was a tailing record, with one producer less. -/
theorem Added.of_crosses (h : Added P amb record endorseVerified n s s' marked names mid)
    {x : Name} {t' : TailingRecordState}
    (hx : Crosses P amb record endorseVerified n s marked x t') :
    ∃ t, s.tailRecords[x]? = some t ∧ t'.record = t.record ∧
      t.refSet.card < P.config.confirmWeight := by
  obtain ⟨hm, ht', hc⟩ := hx
  obtain ⟨_, _, _, t, ht, _⟩ := h.exists_of_mem hm
  rw [h.walked_of_mem hm ht] at ht'
  cases ht'
  refine ⟨t, ht, rfl, ?_⟩
  rw [h.card_of_mem hm ht] at hc
  omega

/-- What is stored does not cross again. -/
theorem Stored.not_crosses (hs : Stored P s)
    (h : Added P amb record endorseVerified n s s' marked names mid) {x : Name} {d : Data}
    (hx : s.backend.getRecord P.ndn x = some d) (t : TailingRecordState) :
    ¬ Crosses P amb record endorseVerified n s marked x t := by
  intro hc
  obtain ⟨u, hu, _, hlt⟩ := h.of_crosses hc
  exact absurd (hs.heavy x u d hu hx) (Nat.not_le.2 hlt)

/-- **What is stored stays as it is.** -/
theorem Stored.backend_eq (hs : Stored P s)
    (h : Added P amb record endorseVerified n s s' marked names mid)
    (hput : ∀ m, amb.putOk m = true) {x : Name} {d : Data}
    (hx : s.backend.getRecord P.ndn x = some d) : s'.backend.getRecord P.ndn x = some d :=
  (h.backend_of_not_crossing hput fun t hm ht hc => hs.not_crosses h hx t ⟨hm, ht, hc⟩).trans hx

/-- The names of the crossing records, in the order of the list. -/
theorem crossing_sublist {lookup : Name → Option TailingRecordState}
    (hnamed : ∀ x t, lookup x = some t → Record.Named P.ndn x t.record) (confirmWeight : Nat)
    (names : List Name) :
    ((crossing lookup confirmWeight names).map fun r => r.getRecordName P.ndn).Sublist names := by
  induction names with
  | nil => exact List.Sublist.refl _
  | cons x names ih =>
      rw [crossing, List.filterMap_cons]
      cases ht : lookup x with
      | none => exact ih.cons x
      | some t =>
          simp only [Option.bind_some]
          by_cases hc : t.refSet.card = confirmWeight
          · rw [if_pos hc, List.map_cons, (hnamed x t ht).getRecordName]
            exact ih.cons_cons x
          · rw [if_neg hc]
            exact ih.cons x

theorem Added.names_nodup (h : Added P amb record endorseVerified n s s' marked names mid) :
    names.Nodup :=
  h.sorted.imp fun {x y} hlt heq => by
    subst heq
    have hself : compare x x = .eq := Std.ReflCmp.compare_self
    rw [hself] at hlt
    cases hlt

/-- The names that a call confirms, each once. -/
theorem Added.confirmedNames_nodup
    (h : Added P amb record endorseVerified n s s' marked names mid) :
    ((confirmedRecords P amb record endorseVerified n s marked names).map
      fun r => r.getRecordName P.ndn).Nodup :=
  h.names_nodup.sublist (crossing_sublist h.named _ _)

theorem Added.mem_confirmedNames
    (h : Added P amb record endorseVerified n s s' marked names mid) {x : Name} :
    x ∈ (confirmedRecords P amb record endorseVerified n s marked names).map
        (fun r => r.getRecordName P.ndn) ↔
      ∃ t, Crosses P amb record endorseVerified n s marked x t := by
  rw [List.mem_map]
  constructor
  · rintro ⟨r, hr, hname⟩
    obtain ⟨y, hy, t, ht, hc, rfl⟩ := h.mem_confirmedRecords.1 hr
    rw [(h.named y t ht).getRecordName] at hname
    subst hname
    exact ⟨t, hy, ht, hc⟩
  · rintro ⟨t, hx, ht, hc⟩
    exact ⟨t.record, h.mem_confirmedRecords.2 ⟨x, hx, t, ht, hc, rfl⟩,
      (h.named x t ht).getRecordName⟩

/-! ## Every insertion keeps the invariant -/

section Step

variable (hpos : 1 ≤ P.config.confirmWeight) (hsmall : P.config.SmallWeights)
  (hput : ∀ m, amb.putOk m = true)

/-- A record of weight `confirmWeight` or more is not evicted. -/
theorem Added.not_evicted (h : Added P amb record endorseVerified n s s' marked names mid)
    (hsound : TailSound P.ndn (walked amb record endorseVerified n s.tailRecords.lookup marked))
    {x : Name} {t : TailingRecordState} (ht : mid[x]? = some t)
    (hc : P.config.confirmWeight ≤ t.refSet.card) : ¬ Evicted mid.lookup P.config amb x := by
  intro he
  have hlight : t.refSet.card < P.config.confirmWeight := by
    refine he.induction (motive := fun _ t => t.refSet.card < P.config.confirmWeight)
      (fun _ _ _ hexp => hexp.1) (fun x t y u ht hu hy ih => ?_) ht
    exact lt_of_le_of_lt (hsound.card_le ((h.mid_iff x t).1 ht).1 hy ((h.mid_iff y u).1 hu).1) ih
  omega

include hpos hput

/-- The pointers of a record that crosses are stored. -/
theorem Inserted.pointers_stored
    (h : Inserted P amb record endorseVerified n s s' marked names mid) (hs : TailInv P s)
    {x : Name} {t : TailingRecordState}
    (hx : Crosses P amb record endorseVerified n s marked x t) :
    ∀ p ∈ t.record.recordPointers, ∃ d, s'.backend.getRecord P.ndn p = some d := by
  intro p hp
  have hsound := h.sound hs.sound h.ready h.genesis
  obtain ⟨u, hu, hrec, _⟩ := h.of_crosses hx
  obtain ⟨_, ht, hc⟩ := hx
  rcases hs.held x u hu p (hrec ▸ hp) with ⟨v, hv⟩ | ⟨d, hd⟩
  · have hne : n ≠ p := fun heq => h.ready.unpointed x u hu (heq ▸ hrec ▸ hp)
    obtain ⟨v', hv'⟩ : ∃ v',
        walked amb record endorseVerified n s.tailRecords.lookup marked p = some v' :=
      ⟨_, by rw [Added.walked_of_ne hne, hv]; rfl⟩
    obtain ⟨d, hd, _⟩ := (h.named p v' hv').exists_data
    have hle := hsound.card_le ht hp hv'
    exact ⟨d, (h.stored_of_le hpos hput hs hv' (by omega)).trans hd⟩
  · exact h.backend_mono hd

include hsmall

/-- A stored record that leaves the tail is deep, and so are the records it points to. -/
theorem Inserted.pointers_gone
    (h : Inserted P amb record endorseVerified n s s' marked names mid) (hs : TailInv P s)
    {x : Name} {t : TailingRecordState}
    (ht : walked amb record endorseVerified n s.tailRecords.lookup marked x = some t)
    (hc : P.config.confirmWeight ≤ t.refSet.card) (hgone : s'.tailRecords[x]? = none) :
    ∀ p ∈ t.record.recordPointers, s'.tailRecords[p]? = none := by
  intro p hp
  have hsound := h.sound hs.sound h.ready h.genesis
  rcases h.tail_or ht with htail | ⟨_, hdeep⟩ | ⟨hmid, he⟩
  · rw [hgone] at htail; cases htail
  · cases hu : s'.tailRecords[p]? with
    | none => rfl
    | some u =>
        exact absurd ⟨hdeep.1, hdeep.2.trans (hsound.card_le ht hp (h.walked_of_tail hu))⟩
          ((h.tailInv hpos hsmall hput hs).light p u hu)
  · exact absurd he (h.not_evicted hsound hmid hc)

omit hpos hsmall hput in
/-- After the walk, what is stored by the end of the call has weight `confirmWeight`. -/
theorem Stored.heavy_walked (hst : Stored P s)
    (h : Inserted P amb record endorseVerified n s s' marked names mid) {x : Name}
    {t : TailingRecordState} {d : Data}
    (ht : walked amb record endorseVerified n s.tailRecords.lookup marked x = some t)
    (hx : s'.backend.getRecord P.ndn x = some d) : P.config.confirmWeight ≤ t.refSet.card := by
  rcases h.backend_cases hx with ⟨u, ⟨_, hu, hc⟩, _⟩ | hx
  · rw [ht] at hu
    cases hu
    exact hc.ge
  · rcases h.walked_cases ht with ⟨rfl, rfl⟩ | ⟨_, u, hu, rfl⟩
    · rw [h.unstored] at hx; cases hx
    · exact (hst.heavy x u d hu hx).trans (card_le_ite_mark _ _ _)

omit hpos hsmall hput in
/-- What is stored and not a tailing record after the walk was stored before, and its
pointers are not tailing records. -/
theorem Stored.pointers_outside (hst : Stored P s)
    (h : Inserted P amb record endorseVerified n s s' marked names mid) {x : Name} {d : Data}
    {r : Record} (hw : walked amb record endorseVerified n s.tailRecords.lookup marked x = none)
    (hx : s'.backend.getRecord P.ndn x = some d) (hdec : Record.ofData P.ndn d = .ok r) :
    ∀ p ∈ r.recordPointers, s.tailRecords[p]? = none ∧ n ≠ p := by
  intro p hp
  have hne : n ≠ x := by
    rintro rfl
    rw [h.walked_self] at hw
    cases hw
  have hnone : s.tailRecords[x]? = none := by
    rw [Added.walked_of_ne hne, Option.map_eq_none_iff] at hw
    exact hw
  rcases h.backend_cases hx with ⟨u, ⟨_, hu, _⟩, _⟩ | hx
  · rw [hw] at hu; cases hu
  · refine ⟨hst.below x d r hx hdec hnone p hp, ?_⟩
    rintro rfl
    obtain ⟨r', hr', _, hheld⟩ := hst.decoded x d hx
    rw [hdec] at hr'
    cases hr'
    obtain ⟨d', hd'⟩ := hheld n hp
    rw [h.unstored] at hd'
    cases hd'

/-- **Every insertion keeps the invariant of the database.** -/
theorem Stored.inserted (hst : Stored P s) (hs : TailInv P s)
    (h : Inserted P amb record endorseVerified n s s' marked names mid) : Stored P s' where
  decoded x d hx := by
    rcases h.backend_cases hx with ⟨t, hc, hd⟩ | hx
    · obtain ⟨hdec, hname⟩ := (h.named x t hc.2.1).ofData_eq hd
      exact ⟨t.record, hdec, hname, h.pointers_stored hpos hput hs hc⟩
    · obtain ⟨r, hr, hname, hp⟩ := hst.decoded x d hx
      refine ⟨r, hr, hname, fun p hpm => ?_⟩
      obtain ⟨d', hd'⟩ := hp p hpm
      exact ⟨d', hst.backend_eq h.toAdded hput hd'⟩
  heavy x t d ht hx := hst.heavy_walked h (h.walked_of_tail ht) hx
  below x d r hx hdec hgone p hp := by
    -- a stored record is still in the tail after the walk, or it has left it before
    cases hw : walked amb record endorseVerified n s.tailRecords.lookup marked x with
    | some t =>
        have hc := hst.heavy_walked h hw hx
        have hdata := (h.stored_of_le hpos hput hs hw hc).symm.trans hx
        have hr := ((h.named x t hw).ofData_eq hdata).1
        rw [hdec] at hr
        cases hr
        exact h.pointers_gone hpos hsmall hput hs hw hc hgone p hp
    | none =>
        obtain ⟨hnone, hne⟩ := hst.pointers_outside h hw hx hdec p hp
        cases hu : s'.tailRecords[p]? with
        | none => rfl
        | some u =>
            have hu := h.walked_of_tail hu
            rw [Added.walked_of_ne hne, hnone] at hu
            cases hu
  confirmed r hr := by
    rw [h.confirmations_eq, List.mem_append, List.mem_reverse] at hr
    rcases hr with hr | hr
    · obtain ⟨x, hx, t, ht, hc, rfl⟩ := h.mem_confirmedRecords.1 hr
      exact ⟨x, h.named x t ht, h.backend_of_crossing hput hx ht hc⟩
    · obtain ⟨x, hx, hback⟩ := hst.confirmed r hr
      obtain ⟨d, hd, _⟩ := hx.exists_data
      rw [hd] at hback
      exact ⟨x, hx, (hst.backend_eq h.toAdded hput hback).trans hd.symm⟩
  once x := by
    rw [h.confirmations_eq, List.map_append, List.count_append, List.map_reverse,
      List.count_reverse, hst.once x]
    -- what crosses now was not stored, and it crosses once
    by_cases hc : ∃ t, Crosses P amb record endorseVerified n s marked x t
    · obtain ⟨t, hx, ht, hcard⟩ := hc
      have hone := List.count_eq_one_of_mem h.confirmedNames_nodup
        (h.mem_confirmedNames.2 ⟨t, hx, ht, hcard⟩)
      obtain ⟨d, hd, _⟩ := (h.named x t ht).exists_data
      have hnone : s.backend.getRecord P.ndn x = none := by
        cases hb : s.backend.getRecord P.ndn x with
        | none => rfl
        | some d' => exact absurd ⟨hx, ht, hcard⟩ (hst.not_crosses h.toAdded hb t)
      rw [hone, hnone, h.backend_of_crossing hput hx ht hcard, hd]
      rfl
    · rw [List.count_eq_zero.2 (mt h.mem_confirmedNames.1 hc),
        h.backend_of_not_crossing hput fun t hm ht hcard => hc ⟨t, hm, ht, hcard⟩, Nat.zero_add]

end Step

/-! ## Reachable states -/

theorem stored_blank (certManager : σ) : Stored P (blank Backend.empty certManager) := by
  refine ⟨?_, ?_, ?_, ?_, ?_⟩
  · intro n d hd
    rw [blank, Backend.getRecord_empty] at hd
    cases hd
  · intro n t d _ hd
    rw [blank, Backend.getRecord_empty] at hd
    cases hd
  · intro n d r hd
    rw [blank, Backend.getRecord_empty] at hd
    cases hd
  · intro r hr
    cases hr
  · intro n
    rw [blank, Backend.getRecord_empty]
    rfl

theorem Stored.congr (hst : Stored P s) (h : SameRecords s s') : Stored P s' := by
  refine ⟨?_, ?_, ?_, ?_, ?_⟩
  · rw [h.backend]; exact hst.decoded
  · rw [h.backend, h.tailRecords]; exact hst.heavy
  · rw [h.backend, h.tailRecords]; exact hst.below
  · rw [h.backend, h.confirmations]; exact hst.confirmed
  · rw [h.backend, h.confirmations]; exact hst.once

/-- **The invariant of the database holds in every state reachable on an empty one.** -/
theorem Reachable.stored (hpos : 1 ≤ P.config.confirmWeight) (hsmall : P.config.SmallWeights)
    {certManager : σ} (h : Reachable P Backend.empty certManager s) : Stored P s :=
  h.induction hpos hsmall (stored_blank certManager) (fun _ _ ha hab => ha.congr hab)
    fun _ _ _ _ _ _ _ _ _ hput hinv ha hins => ha.inserted hpos hsmall hput hinv hins

end LedgerImpl

end DLedger
