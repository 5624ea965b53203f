import DLedger.Ledger.Retained
import DLedger.Ledger.Sample

set_option autoImplicit false

/-! # Confirmed records and failed writes

A write that fails is not noticed, and the record stays retrievable as long as it is a tailing
record. It is lost when a later addition, or the one that confirms it, brings its weight to
`removeWeight`. These are the only additions that lose a confirmed record.
-/

namespace DLedger

open Tlv (Bytes Block)

namespace LedgerImpl

variable {σ : Type} {P : Peer σ} {amb : Ambient} {s₀ s s' : LedgerImpl σ} {record : Record}
  {certManager : σ}

/-- What has reached `confirmWeight` is confirmed, and `getRecord` returns each confirmed record. -/
structure KeepsConfirmed (P : Peer σ) (s : LedgerImpl σ) : Prop where
  reached : ∀ (n : Name) (t : TailingRecordState), s.tailRecords[n]? = some t →
    P.config.confirmWeight ≤ t.refSet.card → t.record ∈ s.confirmations
  retrieved : ∀ r ∈ s.confirmations, s.getRecord P (r.getRecordName P.ndn) = .ok (some r)

/-- A heavy tailing record is verified, so `getRecord` returns it. -/
theorem TailHeld.getRecord_heavy (hs : TailHeld P s) (hpos : 1 ≤ P.config.confirmWeight) {n : Name}
    {t : TailingRecordState} (ht : s.tailRecords[n]? = some t)
    (hc : P.config.confirmWeight ≤ t.refSet.card) : s.getRecord P n = .ok (some t.record) := by
  have hv : t.parentEndorseVerified = true := by
    rw [hs.sound.flags n t ht]
    by_contra hunendorsed
    rw [Bool.not_eq_true] at hunendorsed
    rw [hs.sound.unmarked n t ht hunendorsed, Finset.card_empty] at hc
    omega
  simp only [getRecord, ht, hv, if_true]

theorem Retained.keepsConfirmed (hs : Retained P s) (hlight : Light P s)
    (hpos : 1 ≤ P.config.confirmWeight) : KeepsConfirmed P s := by
  refine ⟨hlight.confirmed hpos, ?_⟩
  intro r hr
  obtain ⟨n, hn, ⟨t, ht, rfl, hc⟩ | hback⟩ := hs.kept r hr
  · rw [hn.getRecordName]
    exact hs.tail.getRecord_heavy hpos ht hc
  · obtain ⟨d, hd, _⟩ := hn.exists_data
    have hdec := (hn.ofData_eq hd).1
    rw [hd] at hback
    rw [hn.getRecordName]
    cases ht : s.tailRecords[n]? with
    | none =>
        simp only [getRecord, ht, hback, hdec]
        rfl
    | some t =>
        -- the tailing record is the stored one
        obtain ⟨hc, hdata⟩ := hs.heavy n t d ht hback
        have hsame := ((hs.tail.sound.named n t ht).ofData_eq hdata).1
        rw [hdec] at hsame
        cases hsame
        exact hs.tail.getRecord_heavy hpos ht hc

/-- Where records leave the tail before they reach `confirmWeight`, an addition loses none. -/
theorem Light.safeAddition (hs : Light P s) (hpos : 1 ≤ P.config.confirmWeight)
    (hnever : ¬ P.config.Confirms) (amb : Ambient) (record : Record) :
    SafeAddition P amb record s := by
  intro x t ht _ hc hremoves _
  have hlt := hs.light hremoves x t ht
  exact absurd ⟨hpos, by omega⟩ hnever

/-- **In every run on an empty database whose additions are safe, with writes that fail or not,
every record that has reached `confirmWeight` is retrievable, and the next move keeps that exactly
if it is safe.** -/
theorem keepsConfirmed_iff (hpos : 1 ≤ P.config.confirmWeight)
    (h : RunsTo P Backend.empty certManager (SafeCall P) s₀) (hwithin : SafeMoves P amb s₀ s) :
    KeepsConfirmed P s ∧
      ∀ s', Move P amb s s' → (KeepsConfirmed P s' ↔ SafeMove P amb s s') := by
  have hmoves := SafeMoves.moves hwithin
  have hcore := h.returnsNew.core.moves hmoves
  have hlight := h.returnsNew.light.moves h.returnsNew.core hmoves
  by_cases hnever : P.removesDeep = true ∧ ¬ P.config.Confirms
  · -- nothing is confirmed
    have hnil : ∀ a : LedgerImpl σ, Light P a → KeepsConfirmed P a := by
      intro a ha
      refine ⟨ha.confirmed hpos, ?_⟩
      rw [ha.unconfirmed hnever.1 hnever.2]
      simp
    refine ⟨hnil s hlight, fun s' hmove => ?_⟩
    have hkeeps := hnil s' (hlight.move hcore hmove)
    exact iff_of_true hkeeps fun r _ => hlight.safeAddition hpos hnever.2 amb r
  · have hleave : P.removesDeep = true → P.config.confirmWeight ≤ P.config.leaveWeight := by
      intro hremoves
      by_contra hle
      exact hnever ⟨hremoves, fun hconfirms => hle hconfirms.2⟩
    have hs : Retained P s := (h.retained hleave).moves hleave h.returnsNew.core hwithin
    refine ⟨hs.keepsConfirmed hlight hpos, fun s' hmove => ⟨fun hkeeps => ?_, fun hsafe => ?_⟩⟩
    · by_contra hloses
      obtain ⟨r, hr, hnone⟩ := hs.lost hleave hcore hlight hpos hmove hloses
      rw [hkeeps.retrieved r hr] at hnone
      cases hnone
    · exact (hs.move hleave hcore hmove hsafe).keepsConfirmed (hlight.move hcore hmove) hpos

/-! ## Failed writes -/

/-- A call that creates a record is safe if its addition is. -/
theorem safeCall_createRecord (hcore : LedgerCore P s)
    (hnew : ReturnsNew P s (.createRecord amb record))
    (hsafe : ∀ built data, buildRecord P amb record s = (built, .ok (.ok data)) →
      SafeAddition P amb { built with data := some data } s) :
    SafeCall P s (.createRecord amb record) := by
  have hemit : ∀ (a : LedgerImpl σ) (e : Event), e.IsQuiet →
      Move P amb a (a.emit e) ∧ SafeMove P amb a (a.emit e) :=
    fun a e he => ⟨move_emit a he, safeMove_of_same (sameRecords_emit a he)⟩
  refine ⟨hnew, ?_⟩
  rcases createRecord_cases (Outcome.eq_of_returns hnew.2) with
    ⟨events, h⟩ | ⟨built, data, s₁, events, hbuild, hfresh, hadd, h⟩
  · exact h.steps hemit
  have hbuilt := buildRecord_built hnew.1.1 hbuild
  have hcreate : Move P amb s s₁ := Move.create hbuilt (hnew.1.2 built data hbuild) hadd
  have hsafeMove : SafeMove P amb s s₁ := by
    obtain ⟨_, _, _, hadded⟩ := hcore.tail.addition_built hbuilt hfresh hadd
    intro r hr
    rw [hadded.insertions_eq] at hr
    cases hr
    exact hsafe built data hbuild
  exact (h.steps hemit).head ⟨hcreate, hsafeMove⟩

/-- A peer that confirms at weight one and removes at weight two. -/
def smallPeer : Peer Unit := Sample.peer (Sample.config 1 1 1)

/-- At time zero, with writes that fail. -/
def unwritten : Ambient := { Sample.ambient with putOk := fun _ => false }

/-- The ledger of the small peer, and after it has created a record on the genesis record while
writes fail. -/
def startState : LedgerImpl Unit := (Sample.run smallPeer () []).1

def unwrittenState : LedgerImpl Unit :=
  (call smallPeer (.createRecord unwritten Sample.freshRecord) startState).1

theorem startState_eq :
    construct smallPeer Sample.ambient Backend.empty () = (startState, .ok ()) :=
  Sample.construct_eq_run (by decide +kernel)

/-- The genesis record is confirmed and not written; it is kept. -/
theorem keepsConfirmed_iff_unwritten :
    (unwrittenState.confirmations.length = 1 ∧
      (unwrittenState.backend.getRecord Sample.ndn Sample.genesis).isNone = true) ∧
    KeepsConfirmed smallPeer unwrittenState ∧
      ∀ s', Move smallPeer unwritten unwrittenState s' →
        (KeepsConfirmed smallPeer s' ↔ SafeMove smallPeer unwritten unwrittenState s') := by
  have hreturns : (call smallPeer (.createRecord unwritten Sample.freshRecord) startState).2
      = .ok () := by
    decide +kernel
  have hnew : ReturnsNew smallPeer startState (.createRecord unwritten Sample.freshRecord) :=
    ⟨⟨Sample.freshRecord_fresh, fun _ _ _ _ => construct_unknown startState_eq _⟩, hreturns⟩
  -- one producer more does not bring any tailing record to `removeWeight`
  have hlight : (startState.tailRecords.toList.all fun entry =>
      decide (entry.2.refSet.card + 1 < smallPeer.config.removeWeight)) = true := by
    decide +kernel
  have hsafe : SafeCall smallPeer startState (.createRecord unwritten Sample.freshRecord) := by
    refine safeCall_createRecord (construct_core startState_eq).1 hnew
      fun built data _ x t ht _ _ _ hremove => ?_
    have hlt := List.all_eq_true.1 hlight (x, t)
      (Std.TreeMap.mem_toList_iff_getElem?_eq_some.2 ht)
    exact absurd hremove (Nat.not_le.2 (of_decide_eq_true hlt))
  exact ⟨by decide +kernel, keepsConfirmed_iff (by decide)
    ((RunsTo.start startState_eq).call hsafe) Relation.ReflTransGen.refl⟩

/-- A record on the genesis record is received while writes fail, and then one on it. -/
def lostCalls : Call × Call :=
  let p := Sample.packet 97 0 [Sample.genesis]
  (.onFetchedRecord unwritten p,
    .onFetchedRecord Sample.ambient (Sample.packet 98 0 [Sample.ndn.fullName p]))

def lostState : LedgerImpl Unit :=
  (call smallPeer lostCalls.2 (call smallPeer lostCalls.1 startState).1).1

/-- **The second record erases the genesis record, which is confirmed and not stored.** -/
theorem not_keepsConfirmed_lost :
    RunsTo smallPeer Backend.empty () (ReturnsNew smallPeer) lostState ∧
      ¬ KeepsConfirmed smallPeer lostState := by
  constructor
  · have hfirst : (call smallPeer lostCalls.1 startState).2 = .ok () := by decide +kernel
    have hsecond : (call smallPeer lostCalls.2 (call smallPeer lostCalls.1 startState).1).2
        = .ok () := by
      decide +kernel
    exact ((RunsTo.start startState_eq).call ⟨trivial, hfirst⟩).call ⟨trivial, hsecond⟩
  · intro hkeeps
    have hlost : (lostState.confirmations.any fun r =>
        r.getRecordName Sample.ndn == Sample.genesis) = true := by
      decide +kernel
    have hnone : (lostState.getRecord smallPeer Sample.genesis).toOption = some none := by
      decide +kernel
    obtain ⟨r, hr, hname⟩ := List.any_eq_true.1 hlost
    have hget := hkeeps.retrieved r hr
    rw [show r.getRecordName smallPeer.ndn = Sample.genesis from beq_iff_eq.1 hname] at hget
    rw [hget] at hnone
    cases hnone

end LedgerImpl

end DLedger
