import DLedger.Plain.Calls

set_option autoImplicit false

/-! # Runs of a ledger and of its plain variant

A run is a list of calls after the constructor, on an empty database. The constructors agree,
and so do all runs.
-/

namespace DLedger

open Tlv (Bytes Block)

namespace LedgerImpl

variable {σ : Type} {P : Peer σ} {amb : Ambient} {s q : LedgerImpl σ} {certManager : σ}

/-! ## Runs as lists of calls -/

/-- A ledger on an empty database after some calls; the run ends where an exception escapes. -/
def run (P : Peer σ) (amb : Ambient) (certManager : σ) (calls : List Call) :
    LedgerImpl σ × Except Fault Unit :=
  match construct P amb Backend.empty certManager with
  | (s, .error f) => (s, .error f)
  | (s, .ok ()) => Outcome.forEach (call P) calls s

/-- Each call of a list is admissible where it is made. -/
def AdmissibleRun (P : Peer σ) : List Call → LedgerImpl σ → Prop
  | [], _ => True
  | c :: calls, s => Admissible P s c ∧
      ∀ s', call P c s = (s', .ok ()) → AdmissibleRun P calls s'

/-- A run stays in the reachable states. -/
theorem Reachable.calls {db : Backend} (h : Reachable P db certManager s) {calls : List Call}
    (hadm : AdmissibleRun P calls s) {s' : LedgerImpl σ}
    (hrun : Outcome.forEach (call P) calls s = (s', .ok ())) :
    Reachable P db certManager s' := by
  induction calls generalizing s with
  | nil => cases hrun; exact h
  | cons c calls ih =>
      rcases hcall : call P c s with ⟨s₁, f | ⟨⟨⟩⟩⟩
      · rw [Outcome.forEach_cons_error hcall] at hrun
        cases hrun
      · rw [Outcome.forEach_cons_ok hcall] at hrun
        exact ih (h.step ⟨c, hadm.1, hcall⟩) (hadm.2 s₁ hcall) hrun

/-! ## The constructors agree -/

theorem refines_blank (P : Peer σ) (certManager : σ) :
    Refines P (blank Backend.empty certManager) (blank Backend.empty certManager) := by
  have hnone : ∀ n : Name, (blank Backend.empty certManager).tailRecords[n]? = none := by
    intro n
    simp [blank]
  refine ⟨⟨rfl, fun n t => ?_⟩, (genesisPhase_blank _ _).ledgerInv,
    (genesisPhase_blank _ _).ledgerInv, fun _ => ⟨?_, ?_, fun _ => Or.inr hnone, fun _ => hnone⟩⟩
  · rw [hnone n]
    simp
  · intro it hit
    cases hit
  · intro n t ht
    rw [hnone n] at ht
    cases ht

section Construct

variable (hpos : 1 ≤ P.config.confirmWeight) (hsmall : P.config.SmallWeights)
  (hput : ∀ m, amb.putOk m = true) (hdeep : P.removesDeep = true)
include hpos hsmall hput hdeep

theorem Refines.addGenesis (h : Refines P s q) (hs : GenesisPhase P Backend.empty certManager s)
    (i : Nat) :
    Outcome.Agree
      (fun s' q' => Refines P s' q' ∧ GenesisPhase P Backend.empty certManager s')
      (LedgerImpl.addGenesis P amb i s) (LedgerImpl.addGenesis P.plain amb i q) := by
  unfold LedgerImpl.addGenesis
  rw [show genesisData P.plain i = genesisData P i from rfl]
  cases hdata : genesisData P i with
  | error e => exact Outcome.Agree.error
  | ok record =>
      obtain ⟨htype, hpointers, d, hd, hnamed⟩ := genesisData_ok hdata
      dsimp only
      -- two genesis records can have one name, and then the second is not added to either
      cases hfresh : s.tailRecords[P.ndn.fullName d]? with
      | some t =>
          have hq := ((h.tail_iff _ t).1 hfresh).1
          rw [addToTailingRecord_of_tail hd hfresh,
            addToTailingRecord_of_tail (P := P.plain) hd hq]
          exact Outcome.Agree.ok ⟨h, hs⟩
      | none =>
          have hagree := h.addToTailingRecord amb hpos hsmall true hd hfresh
            (by rw [hs.backend]; exact Backend.getRecord_empty _ _)
            (fun hcheck => ⟨hnamed (hcheck rfl), hcheck, hfresh, by simp [hpointers],
              by simp [hpointers], fun m t ht => by simp [hs.pointerless m t ht]⟩)
            (fun _ => hpointers) (by simp [hpointers])
          rcases hagree.cases with ⟨s', q', f, hs', hq'⟩ | ⟨s', q', ⟨⟩, hs', hq', hins⟩
          · rw [hs', hq']
            exact Outcome.Agree.error
          · obtain ⟨marked, marked', names, names', mid, mid', hadd, hplain⟩ := hins
            have hrel := h.inserted_new hpos hsmall hput hdeep hadd hplain
              (by simp [hs.syncStack]) (by simp [hpointers])
            rw [hs', hq']
            exact Outcome.Agree.ok
              ⟨hrel, hs.added hpos hsmall hput htype hpointers hadd.ready hadd.toAdded⟩

theorem construct_agree (certManager : σ) :
    Outcome.Agree (Refines P) (construct P amb Backend.empty certManager)
      (construct P.plain amb Backend.empty certManager) := by
  unfold construct
  dsimp only
  split_ifs with hweights
  · exact Outcome.Agree.error
  · have hstep : ∀ i ∈ List.range P.config.numGenesisBlock, ∀ s q,
        Refines P s q ∧ GenesisPhase P Backend.empty certManager s →
        Outcome.Agree (fun s' q' => Refines P s' q' ∧ GenesisPhase P Backend.empty certManager s')
          (LedgerImpl.addGenesis P amb i s) (LedgerImpl.addGenesis P.plain amb i q) :=
      fun i _ s q hsq => hsq.1.addGenesis hpos hsmall hput hdeep hsq.2 i
    have hloop := Outcome.forEach_agree hstep
      ⟨refines_blank P certManager, genesisPhase_blank Backend.empty certManager⟩
    rcases hloop.cases with ⟨s, q, f, hs, hq⟩ | ⟨s, q, ⟨⟩, hs, hq, hrel⟩
    · rw [hs, hq]
      exact Outcome.Agree.error
    · rw [hs, hq]
      exact Outcome.Agree.ok (hrel.1.sendSyncInterest amb hpos hsmall).1

end Construct

/-! ## Runs agree -/

section Run

variable (hpos : 1 ≤ P.config.confirmWeight) (hsmall : P.config.SmallWeights)
  (hdeep : P.removesDeep = true)
include hpos hsmall hdeep

theorem Refines.calls (h : Refines P s q)
    (hweights : P.config.appendWeight ≤ P.config.contributionWeight) {calls : List Call}
    (hadm : AdmissibleRun P calls s) :
    Outcome.Agree (Refines P) (Outcome.forEach (LedgerImpl.call P) calls s)
      (Outcome.forEach (LedgerImpl.call P.plain) calls q) := by
  induction calls generalizing s q with
  | nil => exact Outcome.Agree.ok h
  | cons c calls ih =>
      rcases (h.call hpos hsmall hweights hdeep hadm.1).cases with
        ⟨s', q', f, hs, hq⟩ | ⟨s', q', ⟨⟩, hs, hq, hrel⟩
      · rw [Outcome.forEach_cons_error hs, Outcome.forEach_cons_error hq]
        exact Outcome.Agree.error
      · rw [Outcome.forEach_cons_ok hs, Outcome.forEach_cons_ok hq]
        exact ih hrel (hadm.2 s' hs)

/-- **Every run agrees with that of the plain variant.** -/
theorem run_agree (hput : Ambient.Writes amb) {calls : List Call}
    (hadm : ∀ s, construct P amb Backend.empty certManager = (s, .ok ()) →
      AdmissibleRun P calls s) :
    Outcome.Agree (Refines P) (run P amb certManager calls)
      (run P.plain amb certManager calls) := by
  unfold run
  rcases (construct_agree hpos hsmall hput hdeep certManager).cases with
    ⟨s, q, f, hs, hq⟩ | ⟨s, q, ⟨⟩, hs, hq, hrel⟩
  · rw [hs, hq]
    exact Outcome.Agree.error
  · rw [hs, hq]
    exact hrel.calls hpos hsmall hdeep (construct_ok hs).1 (hadm s hs)

end Run

end LedgerImpl

end DLedger
