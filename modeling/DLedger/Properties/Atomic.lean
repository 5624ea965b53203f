import DLedger.Ledger.Create
import DLedger.Ledger.Sample

set_option autoImplicit false

/-! # Creating a record again after an error

`createRecord` adds items and pointers to the record of the caller before it may fail, and nothing
is taken back. An application that calls it again with the same record gets the additions twice,
except where the error came before the first of them.
-/

namespace DLedger

open Tlv (Bytes Block)

namespace LedgerImpl

variable {σ : Type} {P : Peer σ} {amb : Ambient} {s s' : LedgerImpl σ} {record record' : Record}
  {code : ReturnCode}

/-- The ledger is as before, and so is the record of the caller. -/
structure Unchanged (s s' : LedgerImpl σ) (record record' : Record) : Prop where
  tailRecords : s'.tailRecords = s.tailRecords
  backend : s'.backend = s.backend
  lastCertRecords : s'.lastCertRecords = s.lastCertRecords
  certManager : s'.certManager = s.certManager
  record_eq : record' = record

/-- An error comes before anything is added: no certificate record is to be listed, and there
are too few candidates, or there is none and the key chain does not sign the record as it is. -/
def FailsEarly (P : Peer σ) (amb : Ambient) (s : LedgerImpl σ) (record : Record) : Prop :=
  s.tailRecords.isEmpty = true ∨ P.certManager.authorizedToGenerate s.certManager = false ∨
    ((record.type = .certificateRecord → s.lastCertRecords = []) ∧
      ((recordList P s).length < P.config.precedingRecordNum ∨
        (recordList P s = [] ∧ ¬ ∃ data, signRecord P amb record = .ok (.ok data))))

theorem certItems_eq_nil : certItems s record = [] ↔
    (record.type = .certificateRecord → s.lastCertRecords = []) := by
  unfold certItems
  by_cases htype : record.type = .certificateRecord
  · simp [htype]
  · simp [htype]

theorem withCerts_eq_self : withCerts s record = record ↔ certItems s record = [] := by
  constructor
  · intro h
    have hitems := congrArg Record.contentItems h
    exact List.append_right_eq_self.1 hitems
  · intro h
    rw [withCerts, h, List.append_nil]

variable (P amb s record) in
theorem chosen_eq_nil : chosen P amb s record = [] ↔ recordList P s = [] := by
  rw [← List.length_eq_zero_iff, length_chosen, ← List.length_eq_zero_iff]
  omega

theorem withPointers_eq_self :
    withPointers P amb s (withCerts s record) = record ↔
      certItems s record = [] ∧ recordList P s = [] := by
  rw [← chosen_eq_nil P amb s (withCerts s record), ← withCerts_eq_self]
  constructor
  · intro h
    have hpointers := congrArg Record.recordPointers h
    have hchosen : chosen P amb s (withCerts s record) = [] :=
      List.append_right_eq_self.1 hpointers
    refine ⟨?_, hchosen⟩
    rw [withPointers, hchosen, List.append_nil] at h
    exact h
  · rintro ⟨hcerts, hchosen⟩
    rw [withPointers, hchosen, List.append_nil]
    exact hcerts

/-- A record that was built is not what it was. -/
theorem not_unchanged_of_built (hdata : record.data = none) (data : Data)
    (hrecord : record'.data = some data) : ¬ Unchanged s s' record record' := by
  intro h
  rw [h.record_eq, hdata] at hrecord
  cases hrecord

/-- The steps of a call that succeeds. -/
theorem createRecord_success (hdata : record.data = none)
    (h : createRecord P amb record s = (s', record', .ok code)) (hcode : code.success = true) :
    P.config.precedingRecordNum ≤ (recordList P s).length ∧
      ∃ data, record' = { withPointers P amb s (withCerts s record) with data := some data } := by
  rcases createRecord_ok h with ⟨hbuild, _⟩ | ⟨built, data, s₁, hbuild, hrecord, _⟩
  · rw [buildRecord_error hdata hbuild] at hcode
    cases hcode
  · obtain ⟨hnum, rfl, _⟩ := buildRecord_signed hdata hbuild
    exact ⟨hnum, data, hrecord⟩

/-- An error exit leaves everything as it was when it comes before the first addition. -/
theorem unchanged_iff (hdata : record.data = none)
    (h : createRecord P amb record s = (s', record', .ok code)) (hcode : code.success = false) :
    Unchanged s s' record record' ↔ FailsEarly P amb s record := by
  have hbuild := buildRecord_eq P amb s hdata
  rw [FailsEarly, ← certItems_eq_nil]
  -- the exits in the order of the source: no body, no certificate, too few pointers, no signature
  split_ifs at hbuild with hempty hauth hnum
  · rw [createRecord_of_error hbuild] at h
    cases h
    exact iff_of_true ⟨rfl, rfl, rfl, rfl, rfl⟩ (Or.inl hempty)
  · rw [createRecord_of_error hbuild] at h
    cases h
    refine iff_of_true ⟨rfl, rfl, rfl, rfl, rfl⟩ (Or.inr (Or.inl ?_))
    simpa using hauth
  · rw [createRecord_of_error hbuild] at h
    cases h
    have hauth' : P.certManager.authorizedToGenerate s.certManager = true := by simpa using hauth
    simp only [hempty, hauth', hnum, Bool.false_eq_true, false_or, true_or, and_true,
      Bool.true_eq_false]
    rw [← withCerts_eq_self]
    exact ⟨fun h => h.record_eq, fun h => ⟨rfl, rfl, rfl, rfl, h⟩⟩
  have hauth' : P.certManager.authorizedToGenerate s.certManager = true := by simpa using hauth
  simp only [hempty, hauth', hnum, Bool.false_eq_true, false_or, Bool.true_eq_false]
  rcases hsign : signRecord P amb (withPointers P amb s (withCerts s record)) with f | code' | data
  · rw [createRecord, hbuild, hsign] at h
    cases h
  · -- the Data was not signed
    rw [hsign] at hbuild
    rw [createRecord_of_error hbuild] at h
    cases h
    constructor
    · intro h
      obtain ⟨hcerts, hlist⟩ := withPointers_eq_self.1 h.record_eq
      refine ⟨hcerts, hlist, ?_⟩
      rintro ⟨data, hdata⟩
      rw [h.record_eq, hdata] at hsign
      cases hsign
    · rintro ⟨hcerts, hlist, _⟩
      exact ⟨rfl, rfl, rfl, rfl, withPointers_eq_self.2 ⟨hcerts, hlist⟩⟩
  · -- the sync Interest was not signed
    rw [hsign] at hbuild
    have hbuilt := createRecord_of_built hbuild
    rw [h] at hbuilt
    dsimp only at hbuilt
    refine iff_of_false (not_unchanged_of_built hdata data (by rw [hbuilt])) ?_
    rintro ⟨hcerts, hlist, hnone⟩
    rw [withPointers_eq_self.2 ⟨hcerts, hlist⟩] at hsign
    exact hnone ⟨data, hsign⟩

/-- **An error of `createRecord` on a fresh record is atomic exactly when it comes early**, and a
later call with a record that is as before adds the right number of pointers exactly when a
pointer is asked for or there is a candidate. -/
theorem createRecord_atomic_iff (hdata : record.data = none)
    (hpointers : record.recordPointers = [])
    (h : createRecord P amb record s = (s', record', .ok code)) (hcode : code.success = false) :
    (Unchanged s s' record record' ↔ FailsEarly P amb s record) ∧
      ∀ (amb₂ : Ambient) (s₂ s₃ : LedgerImpl σ) (record₂ : Record) (code₂ : ReturnCode),
        record' = record → createRecord P amb₂ record' s₂ = (s₃, record₂, .ok code₂) →
        code₂.success = true →
        record₂.contentItems = record.contentItems ++ certItems s₂ record ∧
          (record₂.recordPointers.length = max 1 P.config.precedingRecordNum ↔
            1 ≤ P.config.precedingRecordNum ∨ recordList P s₂ ≠ []) := by
  refine ⟨unchanged_iff hdata h hcode, ?_⟩
  rintro amb₂ s₂ s₃ record₂ code₂ rfl hretry hsuccess
  obtain ⟨hnum, data, rfl⟩ := createRecord_success hdata hretry hsuccess
  refine ⟨rfl, ?_⟩
  have hlen : (withPointers P amb₂ s₂ (withCerts s₂ record')).recordPointers.length
      = min (max 1 P.config.precedingRecordNum) (recordList P s₂).length := by
    have hnone : (withCerts s₂ record').recordPointers = [] := hpointers
    rw [withPointers, hnone, List.nil_append, length_chosen, hnone, List.length_nil, Nat.sub_zero]
  rw [hlen, ← List.length_pos_iff]
  omega

/-- A fresh record of an application. -/
def retried : Record := { type := .genericRecord, uniqueIdentifier := [49] }

theorem createRecord_atomic_retried :
    let P := Sample.peer (Sample.config 1 5 3)
    let s := (construct P Sample.ambient Backend.empty ()).1
    createRecord P Sample.ambient retried (blank Backend.empty ())
        = (blank Backend.empty (), retried, .ok .noTailingRecord) ∧
      (createRecord P Sample.ambient retried s).2.1.recordPointers.length = 1 := by
  intro P s
  have hfails : createRecord P Sample.ambient retried (blank Backend.empty ())
      = (blank Backend.empty (), retried, .ok .noTailingRecord) := rfl
  refine ⟨hfails, ?_⟩
  obtain ⟨code, hretry, hcode⟩ := exists_success (createRecord P Sample.ambient retried s)
    (by decide +kernel)
  exact ((createRecord_atomic_iff rfl rfl hfails rfl).2 _ _ _ _ _ rfl hretry hcode).2.2
    (Or.inl le_rfl)

/-- The key chain does not sign the Data. -/
def unsigned : Ambient := { Sample.ambient with signData := fun _ _ => .error "" }

/-- A first call in which the Data is not signed, and a second one with the same record. -/
def firstCall : LedgerImpl Unit × Record × Except Fault ReturnCode :=
  createRecord (Sample.peer (Sample.config 1 5 3)) unsigned retried
    (Sample.run (Sample.peer (Sample.config 1 5 3)) () []).1

def secondCall : LedgerImpl Unit × Record × Except Fault ReturnCode :=
  createRecord (Sample.peer (Sample.config 1 5 3)) Sample.ambient firstCall.2.1 firstCall.1

/-- **When the Data is not signed the pointers stay in the record**, and the next call, which
succeeds, gives it one more than it should have. -/
theorem not_atomic_unsigned :
    let P := Sample.peer (Sample.config 1 5 3)
    ¬ ∀ (s s' : LedgerImpl Unit) (amb : Ambient) (record record' : Record) (code : ReturnCode),
      Reachable P Backend.empty () s → record.Fresh P.ndn →
      createRecord P amb record s = (s', record', .ok code) → code.success = false →
      Unchanged s s' record record' ∧
        ∀ amb₂ s₂ record₂ code₂, createRecord P amb₂ record' s' = (s₂, record₂, .ok code₂) →
          code₂.success = true →
          record₂.recordPointers.length = max 1 P.config.precedingRecordNum := by
  intro P hall
  have hreach : Reachable P Backend.empty () (Sample.run P () []).1 :=
    Sample.reachable_run (by decide +kernel)
  have hcode : firstCall.2.2 = .ok (.signingError "") := by decide +kernel
  have hfirst : firstCall = (firstCall.1, firstCall.2.1, .ok (.signingError "")) := by
    rw [← hcode]
  have htwo : secondCall.2.1.recordPointers.length = 2 := by decide +kernel
  obtain ⟨code₂, hretry, hsuccess⟩ := exists_success secondCall (by decide +kernel)
  obtain ⟨_, hagain⟩ := hall (Sample.run P () []).1 firstCall.1 unsigned retried firstCall.2.1
    (.signingError "") hreach ⟨rfl, rfl, by decide, by decide +kernel⟩ hfirst rfl
  have hone := hagain Sample.ambient secondCall.1 secondCall.2.1 code₂ hretry hsuccess
  rw [htwo] at hone
  exact absurd hone (by decide)

end LedgerImpl

end DLedger
