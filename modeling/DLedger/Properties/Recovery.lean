import DLedger.Ledger.Stored
import DLedger.Ledger.Sample

set_option autoImplicit false

/-! # Records that were not endorsed

A record that is added without endorsement is meant to be confirmed all the same when enough
other producers build on it. It is not: `hasRecord` denies it, so that what points to it waits
in the sync stack, and its reference set stays empty for as long as it is a tailing record.
-/

namespace DLedger

open Tlv (Bytes Block)

namespace LedgerImpl

variable {σ : Type} {P : Peer σ} {amb : Ambient} {s s' : LedgerImpl σ} {certManager : σ}

/-- A tailing record without endorsement, when no tailing record below `confirmWeight` is older than
a time. -/
structure Stuck (P : Peer σ) (first : Int) (n : Name) (s : LedgerImpl σ) : Prop where
  unendorsed : ∃ t, s.tailRecords[n]? = some t ∧ t.recordEndorseVerified = false
  since : ∀ (m : Name) (t : TailingRecordState), s.tailRecords[m]? = some t →
    t.refSet.card < P.config.confirmWeight → first ≤ t.addedTime

/-- Then none has expired before the timeout has passed since that time. -/
theorem Stuck.noneExpired {first : Int} {n : Name} (h : Stuck P first n s)
    (htimeout : amb.now - first ≤ P.config.blockConfirmationTimeout) :
    NoneExpired P (fun _ _ => True) amb s := by
  rintro m t ht _ ⟨hlight, hlate⟩
  have hsince := h.since m t ht hlight
  omega

/-- **An insertion leaves an unendorsed record as it is.** -/
theorem Stuck.inserted {record : Record} {endorseVerified : Bool} {m n : Name}
    {marked : Finset Name} {names : List Name} {mid : TailMap} {first : Int}
    (hstuck : Stuck P first n s) (hs : TailInv P s)
    (h : Inserted P amb record endorseVerified m s s' marked names mid)
    (hnow : first ≤ amb.now) (htimeout : amb.now - first ≤ P.config.blockConfirmationTimeout) :
    Stuck P first n s' where
  unendorsed := by
    obtain ⟨t, ht, he⟩ := hstuck.unendorsed
    have hfresh := hstuck.noneExpired htimeout
    have hne : m ≠ n := by
      rintro rfl
      rw [h.ready.fresh] at ht
      cases ht
    have hmarked : n ∉ marked := fun hn => by
      rw [h.endorsed_of_mem hs.sound h.ready hn ht] at he
      cases he
    have hwalked : walked amb record endorseVerified m s.tailRecords.lookup marked n = some t := by
      rw [Added.walked_of_ne hne, ht, Option.map_some, if_neg hmarked]
    rcases h.tail_or hwalked with htail | ⟨hn, _⟩ | ⟨_, hevicted⟩
    · exact ⟨t, htail, he⟩
    · exact absurd hn hmarked
    · obtain ⟨y, u, hy, hexpired, _⟩ := hevicted
      exact absurd hexpired (hfresh.not_expired (by omega) h.toAdded ((h.mid_iff y u).1 hy).1 trivial)
  since x t' ht' hlight := by
    rcases h.walked_cases (h.walked_of_tail ht') with ⟨_, rfl⟩ | ⟨_, t, ht, rfl⟩
    · exact hnow
    · rw [ite_mark_addedTime]
      exact hstuck.since x t ht ((card_le_ite_mark _ _ _).trans_lt hlight)

theorem Stuck.congr {first : Int} {n : Name} (hstuck : Stuck P first n s) (h : SameRecords s s') :
    Stuck P first n s' := by
  refine ⟨?_, ?_⟩
  · rw [h.tailRecords]; exact hstuck.unendorsed
  · rw [h.tailRecords]; exact hstuck.since

theorem Stuck.step (hpos : 1 ≤ P.config.confirmWeight) (hsmall : P.config.SmallWeights)
    {first last : Int} (hwindow : last - first ≤ P.config.blockConfirmationTimeout) {n : Name}
    (hstuck : Stuck P first n s) (hinv : LedgerInv P s) (hstep : StepWithin P first last s s') :
    Stuck P first n s' := by
  obtain ⟨c, hc, hfirst, hlast, hrun⟩ := hstep
  have hmoves := call_moves hpos hsmall hinv hc hrun
  exact hinv.moves_induction hpos hsmall hc.writes hstuck (fun a b ha hab => ha.congr hab)
    (fun record e m a b marked names mid ha hs hins =>
      hs.inserted ha.tail hins hfirst (by omega)) hmoves

/-- **An unendorsed tailing record is not confirmed by any calls while no timeout elapses**, of
however many producers the received records are. -/
theorem unendorsed_not_confirmed (hpos : 1 ≤ P.config.confirmWeight)
    (hsmall : P.config.SmallWeights) (h : Reachable P Backend.empty certManager s) {n : Name}
    {t : TailingRecordState} (ht : s.tailRecords[n]? = some t)
    (he : t.recordEndorseVerified = false) {first last : Int}
    (hwindow : last - first ≤ P.config.blockConfirmationTimeout)
    (hsince : ∀ (m : Name) (t : TailingRecordState), s.tailRecords[m]? = some t →
      t.refSet.card < P.config.confirmWeight → first ≤ t.addedTime)
    (hsteps : Relation.ReflTransGen (StepWithin P first last) s s') :
    s'.backend.getRecord P.ndn n = none ∧ s'.hasRecord P (P.ndn.toUri n) = false := by
  have hlater : Reachable P Backend.empty certManager s' ∧ Stuck P first n s' := by
    induction hsteps with
    | refl => exact ⟨h, ⟨t, ht, he⟩, hsince⟩
    | tail _ hstep ih =>
        exact ⟨ih.1.step hstep.step, ih.2.step hpos hsmall hwindow (ih.1.inv hpos hsmall) hstep⟩
  obtain ⟨hreach, ⟨t', ht', he'⟩, _⟩ := hlater
  have hsound := (hreach.inv hpos hsmall).tail.sound
  -- an entry that is not endorsed has no weight, so it is neither stored nor verified
  constructor
  · cases hback : s'.backend.getRecord P.ndn n with
    | none => rfl
    | some d =>
        have hheavy := (hreach.stored hpos hsmall).heavy n t' d ht' hback
        rw [hsound.unmarked n t' ht' he', Finset.card_empty] at hheavy
        omega
  · rw [← Bool.not_eq_true, hasRecord_toUri]
    rintro (⟨u, hu, hv⟩ | ⟨hnone, _⟩)
    · rw [ht'] at hu
      cases hu
      rw [hsound.flags n t' ht', he'] at hv
      cases hv
    · rw [ht'] at hnone
      cases hnone

/-! ## An unendorsed record with enough records on it -/

/-- Packets by distinct producers, other than that of a record, that pass the syntax check and
point to the record and otherwise to endorsed tailing records of low weight. -/
structure BuildOn (P : Peer σ) (amb : Ambient) (s : LedgerImpl σ) (n : Name)
    (packets : List Data) : Prop where
  distinct : (packets.map fun d => RecordName.getProducerPrefix d.name).Nodup
  other : ∀ d ∈ packets, RecordName.getProducerPrefix d.name ≠ RecordName.getProducerPrefix n
  checked : ∀ d ∈ packets, checkSyntaxValidityOfRecord P amb d s = .ok true
  points : ∀ d ∈ packets, ∃ r, Record.ofData P.ndn d = .ok r ∧ n ∈ r.recordPointers ∧
    ∀ p ∈ r.recordPointers, p ≠ n → ∃ u, s.tailRecords[p]? = some u ∧
      u.recordEndorseVerified = true ∧ u.refSet.card ≤ P.config.contributionWeight

/-- A record is stored and `hasRecord` knows it. -/
def IsConfirmed (P : Peer σ) (s : LedgerImpl σ) (n : Name) : Prop :=
  (∃ d, s.backend.getRecord P.ndn n = some d) ∧ s.hasRecord P (P.ndn.toUri n) = true

/-- **One producer is enough to confirm a record here, and its packet does not confirm an
unendorsed one.** The second record is not endorsed, as the genesis record has left the tail. -/
theorem not_recovered_unendorsedPackets :
    let P := Sample.peer (Sample.config 1 0 1)
    let s := (Sample.run P () Sample.unendorsedPackets).1
    let n := Sample.ndn.fullName (Sample.packet 98 0 [Sample.genesis])
    Reachable P Backend.empty () s ∧
      (s.tailRecords[n]?.map TailingRecordState.recordEndorseVerified) = some false ∧
      ¬ ∀ packets, packets.length = P.config.confirmWeight →
        BuildOn P Sample.ambient s n packets →
        IsConfirmed P (Outcome.forEach (onFetchedRecord P Sample.ambient) packets s).1 n := by
  intro P s n
  refine ⟨Sample.reachable_run (by decide +kernel), by decide +kernel, fun hall => ?_⟩
  have hdec := Sample.ofData_packet 99 0 [n] (by decide +kernel)
  have hbuild : BuildOn P Sample.ambient s n [Sample.packet 99 0 [n]] := by
    refine ⟨by decide +kernel, by decide +kernel, by decide +kernel, fun d hd => ?_⟩
    rw [List.mem_singleton.1 hd]
    refine ⟨_, hdec, List.mem_singleton_self n, fun p hp hne => ?_⟩
    exact absurd (List.mem_singleton.1 hp) hne
  have hconfirmed := hall [Sample.packet 99 0 [n]] rfl hbuild
  have hrecord : (Outcome.forEach (onFetchedRecord P Sample.ambient) [Sample.packet 99 0 [n]]
      s).1.hasRecord P (P.ndn.toUri n) = false := by
    decide +kernel
  rw [hconfirmed.2] at hrecord
  cases hrecord

theorem unendorsed_not_confirmed_unendorsedPackets :
    let P := Sample.peer (Sample.config 1 0 1)
    let n := Sample.ndn.fullName (Sample.packet 98 0 [Sample.genesis])
    let s := (Sample.run P () Sample.unendorsedPackets).1
    let s' := (onFetchedRecord P Sample.ambient (Sample.packet 99 0 [n]) s).1
    s'.backend.getRecord P.ndn n = none ∧ s'.hasRecord P (P.ndn.toUri n) = false := by
  intro P n s s'
  have hsome : (s.tailRecords[n]?).isSome = true := by decide +kernel
  have hunendorsed : s.tailRecords[n]?.map TailingRecordState.recordEndorseVerified
      = some false := by
    decide +kernel
  have hsince : ∀ entry ∈ s.tailRecords.toList, 0 ≤ entry.2.addedTime := by decide +kernel
  have hreach : Reachable P Backend.empty () s := Sample.reachable_run (by decide +kernel)
  have hstep : StepWithin P 0 0 s s' :=
    StepWithin.onFetchedRecord (fun _ => rfl) (le_refl 0) (le_refl 0) (by decide +kernel)
  clear_value s s'
  obtain ⟨t, ht⟩ := Option.isSome_iff_exists.1 hsome
  rw [ht] at hunendorsed
  exact unendorsed_not_confirmed (P := P) (by decide) (Sample.smallWeights (by decide) (by decide))
    hreach ht (Option.some.inj hunendorsed) (show (0 : Int) - 0 ≤ 1000 by decide)
    (fun m u hu _ => hsince (m, u) (Std.TreeMap.mem_toList_iff_getElem?_eq_some.2 hu))
    (Relation.ReflTransGen.single hstep)

end LedgerImpl

end DLedger
