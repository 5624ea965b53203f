import DLedger.Plain.Run
import DLedger.Ledger.Sample

set_option autoImplicit false

/-! # Deep records

The erase of deep records is an optimisation: without it, a ledger gives the same answers, does
the same, and makes the same decisions about what comes next.
-/

namespace DLedger

open Tlv (Bytes Block)

namespace LedgerImpl

variable {σ : Type} {P : Peer σ} {amb : Ambient} {s q : LedgerImpl σ} {certManager : σ}

/-- What a ledger `s` and one of the plain variant, `q`, have in common: all that the
application and other peers see, and what the next calls decide by. -/
structure SameAnswers (P : Peer σ) (s q : LedgerImpl σ) : Prop where
  /-- The verdict over the endorsement of each record, with the same callbacks. -/
  endorse : ∀ amb data, checkEndorseValidityOfRecord P.plain amb data q
    = checkEndorseValidityOfRecord P amb data s
  syncStack : q.syncStack = s.syncStack
  /-- The candidates for the pointers of a new record. -/
  recordList : recordList P.plain q = recordList P s
  /-- The packets that `createRecord` signs. -/
  signed : ∀ amb record data, record.Fresh P.ndn →
    ((buildRecord P.plain amb record q).2 = .ok (.ok data) ↔
      (buildRecord P amb record s).2 = .ok (.ok data))
  hasRecord : ∀ recordName, q.hasRecord P.plain recordName = s.hasRecord P recordName
  getRecord : ∀ recordName, q.getRecord P.plain recordName = s.getRecord P recordName
  listRecord : ∀ namePrefix, q.listRecord P.plain namePrefix = s.listRecord P namePrefix
  frontier : frontier q = frontier s
  lastCertRecords : q.lastCertRecords = s.lastCertRecords
  certManager : q.certManager = s.certManager
  backend : q.backend = s.backend
  /-- What was inserted with which verdict, confirmed, fetched, sent and replied so far. -/
  log : q.log = s.log

theorem Refines.sameAnswers (h : Refines P s q) (hpos : 1 ≤ P.config.confirmWeight)
    (hsmall : P.config.SmallWeights)
    (hweights : P.config.appendWeight ≤ P.config.contributionWeight) : SameAnswers P s q where
  endorse _ data := h.checkEndorseValidityOfRecord hpos hsmall data
  syncStack := h.syncStack
  recordList := h.recordList hsmall hweights
  signed amb record data hfresh := by
    rcases h.isEmpty_cases with hempty | ⟨hs, hq⟩
    · rw [h.buildRecord hsmall hweights record hempty]
    · obtain ⟨hbuild, code, hbuild', _⟩ := h.buildRecord_of_empty amb hsmall hweights
        hfresh.data_eq hs hq
      rw [hbuild, hbuild']
      simp
  hasRecord := h.hasRecord hpos hsmall
  getRecord := h.getRecord hpos hsmall
  listRecord := h.listRecord hpos hsmall
  frontier := h.frontier hpos hsmall
  lastCertRecords := h.lastCertRecords
  certManager := h.certManager
  backend := h.backend
  log := h.log

/-- **The erase of deep records cannot be observed.** Whatever calls are made, the same
exception escapes with it and without it, or none does and the two give the same answers. -/
theorem deepRemoval_unobservable (hpos : 1 ≤ P.config.confirmWeight)
    (hsmall : P.config.SmallWeights) (hdeep : P.removesDeep = true) (hput : Ambient.Writes amb)
    {calls : List Call}
    (hadm : ∀ s, construct P amb Backend.empty certManager = (s, .ok ()) →
      AdmissibleRun P calls s) :
    (run P.plain amb certManager calls).2 = (run P amb certManager calls).2 ∧
      ((run P amb certManager calls).2 = .ok () →
        SameAnswers P (run P amb certManager calls).1 (run P.plain amb certManager calls).1) := by
  have hagree := run_agree hpos hsmall hdeep hput hadm
  refine ⟨hagree.result_eq.symm, fun hok => ?_⟩
  refine (hagree.related hok).sameAnswers hpos hsmall ?_
  unfold run at hok
  rcases hstart : construct P amb Backend.empty certManager with ⟨s, f | ⟨⟨⟩⟩⟩
  · rw [hstart] at hok
    cases hok
  · exact (construct_ok hstart).1

/-- The first record makes the genesis record deep, and the second one is not endorsed, with
the genesis record in the tail and without it. -/
theorem deepRemoval_unobservable_unendorsedPackets :
    let P := Sample.peer (Sample.config 1 0 1)
    let calls := Sample.unendorsedPackets.map (Call.onFetchedRecord Sample.ambient)
    let s := (run P Sample.ambient () calls).1
    let q := (run P.plain Sample.ambient () calls).1
    s.tailRecords.contains Sample.genesis = false ∧
      q.tailRecords.contains Sample.genesis = true ∧ SameAnswers P s q := by
  intro P calls s q
  have hs : s.tailRecords.contains Sample.genesis = false := by decide +kernel
  have hq : q.tailRecords.contains Sample.genesis = true := by decide +kernel
  have hok : (run P Sample.ambient () calls).2 = .ok () := by decide +kernel
  refine ⟨hs, hq, (deepRemoval_unobservable (P := P) (by decide)
    (Sample.smallWeights (by decide) (by decide)) rfl (fun _ => rfl) fun s _ => ?_).2 hok⟩
  exact ⟨fun _ => rfl, fun _ _ => ⟨fun _ => rfl, fun _ _ => trivial⟩⟩

end LedgerImpl

end DLedger
