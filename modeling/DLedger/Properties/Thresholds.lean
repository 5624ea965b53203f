import DLedger.Ledger.Light
import DLedger.Ledger.Sample

set_option autoImplicit false

/-! # The thresholds of removal

`addToTailingRecord` computes `removeWeight` as an `int` and compares it with a `size_t`. For
weights that an `int` holds it is the larger one of `contributionWeight + 1` and `confirmWeight`,
and then a record that leaves the tail for its weight is heavier than the contribution policy
permits and has been confirmed. For other weights it is smaller than one of the two, and a
`confirmWeight` of `0` is met by no record that the loop looks at.
-/

namespace DLedger

open Tlv (Bytes Block)

/-- The weights for which `removeWeight` is right: records are confirmed at a positive weight, and
both thresholds are held by an `int` or both become negative in it, so that `removeWeight` is above
any number of producers. -/
def Config.RightThresholds (config : Config) : Prop :=
  1 ≤ config.confirmWeight ∧
    (config.contributionWeight + 1 < 2 ^ 31 ∧ config.confirmWeight < 2 ^ 31 ∨
      2 ^ 31 ≤ (config.contributionWeight + 1) % 2 ^ 32 ∧ 2 ^ 31 ≤ config.confirmWeight % 2 ^ 32)

/-- The weights of the type `size_t`. -/
structure Config.SizeWeights (config : Config) : Prop where
  contribution : config.contributionWeight < 2 ^ 64
  confirm : config.confirmWeight < 2 ^ 64

/-- They are right exactly when a record leaves the tail above `contributionWeight` and not below
`confirmWeight`. -/
theorem Config.rightThresholds_iff {config : Config} (h : config.SizeWeights) :
    config.RightThresholds ↔
      config.contributionWeight < config.leaveWeight ∧ config.Confirms := by
  have hc := h.contribution
  have hk := h.confirm
  unfold RightThresholds Confirms leaveWeight removeWeight ofInt
  generalize config.contributionWeight = c at *
  generalize config.confirmWeight = k at *
  -- whether each of the two becomes negative in an `int`
  by_cases hcn : (c + 1) % 2 ^ 64 % 2 ^ 32 < 2 ^ 31
  · by_cases hkn : k % 2 ^ 32 < 2 ^ 31
    · rw [toInt_of_mod_lt hcn, toInt_of_mod_lt hkn]
      omega
    · rw [toInt_of_mod_lt hcn, toInt_of_le_mod (not_lt.1 hkn)]
      omega
  · by_cases hkn : k % 2 ^ 32 < 2 ^ 31
    · rw [toInt_of_le_mod (not_lt.1 hcn), toInt_of_mod_lt hkn]
      omega
    · rw [toInt_of_le_mod (not_lt.1 hcn), toInt_of_le_mod (not_lt.1 hkn)]
      omega

namespace LedgerImpl

variable {σ : Type} {P : Peer σ} {db : Backend} {certManager : σ} {amb : Ambient}
  {s s' : LedgerImpl σ} {record : Record} {endorseVerified : Bool}

/-! ## The additions of a run -/

/-- The calls of `addToTailingRecord` in the runs of a ledger: by the constructor, by
`createRecord`, and for an entry of the sync stack while a packet is received. Writes may fail. -/
inductive Adds (P : Peer σ) (db : Backend) (certManager : σ) :
    Ambient → Record → Bool → LedgerImpl σ → Prop where
  | genesis {amb : Ambient} {i : Nat} {record : Record} {s : LedgerImpl σ}
      (before : Outcome.forEach (addGenesis P amb) (List.range i) (blank db certManager)
        = (s, .ok ()))
      (genesis : genesisData P i = .ok record) : Adds P db certManager amb record true s
  | create {amb : Ambient} {record built : Record} {data : Data} {s : LedgerImpl σ}
      (run : RunsTo P db certManager (ReturnsNew P) s)
      (new : CreatesNew P s (.createRecord amb record))
      (build : buildRecord P amb record s = (built, .ok (.ok data))) :
      Adds P db certManager amb { built with data := some data } true s
  | resolve {amb : Ambient} {it : Record × Int} {data : Data} {endorseVerified : Bool}
      {s₀ s : LedgerImpl σ} (run : RunsTo P db certManager (ReturnsNew P) s₀)
      (within : ReceiveMoves P amb (fun _ => True) s₀ s) (waiting : it ∈ s.syncStack)
      (ready : readyToAdd P it.1 s = .ok true) (data_eq : it.1.data = some data)
      (endorse : checkEndorseValidityOfRecord P amb data s = .ok endorseVerified) :
      Adds P db certManager amb it.1 endorseVerified s

/-- A call of `addToTailingRecord` erases a record for its weight: after the walk it is a tailing
record with the entry `t`, and after the loop over the updated records, which leaves `s'`, it is
none. -/
structure ErasesDeep (P : Peer σ) (amb : Ambient) (record : Record) (endorseVerified : Bool)
    (s : LedgerImpl σ) (x : Name) (t : TailingRecordState) (s' : LedgerImpl σ) : Prop where
  fresh : s.tailRecords.contains (record.getRecordName P.ndn) = false
  walk : ∃ w, weightWalk P record
      ((insertRecord P amb record endorseVerified s).tailRecords.size + 1)
      (walkStart P record endorseVerified (insertRecord P amb record endorseVerified s))
        = (w, .ok ()) ∧
    w.ledger.tailRecords[x]? = some t ∧
    (Outcome.forEach (processUpdated P amb) w.updatedRecords.toList (w.ledger, false)).1.1 = s'
  gone : s'.tailRecords[x]? = none

/-- Where the core invariants and the bounds hold, a record that is erased has the weight
`leaveWeight`, and it has been confirmed if `confirmWeight` allows that. -/
theorem ErasesDeep.weight {x : Name} {t : TailingRecordState}
    (h : ErasesDeep P amb record endorseVerified s x t s') (hcore : TailCore P s)
    (hlight : Light P s) {d : Data} (hd : record.data = some d)
    (hnamed : (endorseVerified = true → RecordName.check (P.ndn.fullName d) = .ok ()) →
      Record.Named P.ndn (P.ndn.fullName d) record)
    (hv : pointersVerified record s = true) :
    t.refSet.card = P.config.leaveWeight ∧
      (t.record ∈ s'.confirmations ↔ P.config.Confirms) := by
  obtain ⟨w, hrun, ht, hloop⟩ := h.walk
  obtain ⟨hn, marked, hwalk, hverified⟩ := hcore.newWalk hd hnamed hv hrun
  have hinsert : insertRecord P amb record endorseVerified s
      = withNew amb record endorseVerified (P.ndn.fullName d) s :=
    insertRecord_eq hn.getRecordName hv
  have hfresh : s.tailRecords[P.ndn.fullName d]? = none := by
    have hcontains := h.fresh
    rw [hn.getRecordName, Std.TreeMap.contains_eq_isSome_getElem?] at hcontains
    cases htail : s.tailRecords[P.ndn.fullName d]? with
    | none => rfl
    | some u => rw [htail] at hcontains; cases hcontains
  rw [hinsert] at hrun
  obtain ⟨s₁, mid, hprocess, _, hadded⟩ := added_of_newWalk hn hfresh hinsert hcore.named hrun hwalk
    (marksVerified_of_tail hverified)
  rw [hprocess] at hloop
  subst hloop
  -- the entry after the walk, which the loop has removed
  have hwalked : walked amb record endorseVerified (P.ndn.fullName d) s.tailRecords.lookup marked x
      = some t := (congrFun hwalk.tail x).symm.trans ht
  have hdeep : x ∈ marked ∧ IsDeep P t := by
    by_contra hstays
    have hmid := (hadded.mid_iff x t).2 ⟨hwalked, hstays⟩
    rw [show mid[x]? = none from h.gone] at hmid
    cases hmid
  have hremoves := hdeep.2.1
  have hcard : t.refSet.card = P.config.leaveWeight :=
    le_antisymm (hlight.walked_le hadded hremoves hwalked)
      (hadded.leaveWeight_le hdeep.1 hwalked hdeep.2)
  refine ⟨hcard, ?_⟩
  have hconfirmations : ((confirmAll P amb (confirmedRecords P amb record endorseVerified
      (P.ndn.fullName d) s marked w.updatedRecords.toList) w.ledger).withTail mid).confirmations
        = s₁.confirmations := by
    rw [hadded.confirmations_eq, withTail_confirmations,
      confirmAll_confirmations P amb hadded.confirmedRecords_data, hwalk.rest,
      withTail_confirmations, emit_confirmations]
    rfl
  dsimp only
  rw [hconfirmations]
  constructor
  · intro hmem
    by_contra hnever
    rw [hlight.confirmations_eq_nil hadded hremoves hnever] at hmem
    cases hmem
  · intro hconfirms
    exact hlight.confirmed_walked hadded hconfirms.1 hwalked (hconfirms.2.trans hcard.ge)

/-- So it is in every addition of a run. -/
theorem Adds.weight (h : Adds P db certManager amb record endorseVerified s) {x : Name}
    {t : TailingRecordState} (hdeep : ErasesDeep P amb record endorseVerified s x t s') :
    t.refSet.card = P.config.leaveWeight ∧
      (t.record ∈ s'.confirmations ↔ P.config.Confirms) := by
  cases h with
  | genesis before genesis =>
      obtain ⟨hcore, hlight⟩ := light_addGenesis before
      obtain ⟨_, hpointers, d, hd, hnamed⟩ := genesisData_ok genesis
      exact hdeep.weight hcore hlight hd (fun hname => hnamed (hname rfl))
        (by simp [pointersVerified, hpointers])
  | create run new build =>
      have hbuilt := buildRecord_built new.1 build
      exact hdeep.weight run.core.tail run.light hbuilt.data_eq
        (fun hname => hbuilt.named (hname rfl)) hbuilt.pointersVerified
  | resolve run within waiting ready data_eq endorse =>
      have hmoves := ReceiveMoves.moves within
      have hcore := run.core.moves hmoves
      have hlight := run.light.moves run.core hmoves
      obtain ⟨n, hn, _⟩ := hcore.stack.waiting _ waiting
      obtain ⟨d, hd, rfl⟩ := hn.exists_data
      exact hdeep.weight hcore.tail hlight hd (fun _ => hn) (pointersVerified_of_ready ready)

/-- **In every run, whatever the weights are and whether writes succeed or not: a record that is
erased for its weight is heavier than `contributionWeight` and has been confirmed, if and only if
the thresholds are right.** -/
theorem erasesDeep_iff (hsize : P.config.SizeWeights)
    (h : Adds P db certManager amb record endorseVerified s) {x : Name} {t : TailingRecordState}
    (hdeep : ErasesDeep P amb record endorseVerified s x t s') :
    (P.config.contributionWeight < t.refSet.card ∧ t.record ∈ s'.confirmations) ↔
      P.config.RightThresholds := by
  obtain ⟨hcard, hconfirmed⟩ := h.weight hdeep
  rw [hcard, hconfirmed, Config.rightThresholds_iff hsize]

/-! ## The first record of a peer -/

/-- A ledger with one genesis record, and the record that its peer creates on it. -/
def firstState (config : Config) : LedgerImpl Unit :=
  (construct (Sample.peer config) Sample.ambient Backend.empty ()).1

def firstBuilt (config : Config) : Record × Except Fault (Except ReturnCode Data) :=
  buildRecord (Sample.peer config) Sample.ambient Sample.freshRecord (firstState config)

def firstRecord (config : Config) (data : Data) : Record :=
  { (firstBuilt config).1 with data := some data }

def firstWalk (config : Config) (data : Data) : WalkState Unit × Except Fault Unit :=
  let s := insertRecord (Sample.peer config) Sample.ambient (firstRecord config data) true
    (firstState config)
  weightWalk (Sample.peer config) (firstRecord config data) (s.tailRecords.size + 1)
    (walkStart (Sample.peer config) (firstRecord config data) true s)

def firstLoop (config : Config) (data : Data) : LedgerImpl Unit :=
  (Outcome.forEach (processUpdated (Sample.peer config) Sample.ambient)
    (firstWalk config data).1.updatedRecords.toList ((firstWalk config data).1.ledger, false)).1.1

/-- Whether adding it erases the genesis record. -/
def firstErases (config : Config) (data : Data) : Bool :=
  !(firstState config).tailRecords.contains ((firstRecord config data).getRecordName Sample.ndn) &&
    (firstWalk config data).2.toOption.isSome &&
    (firstWalk config data).1.ledger.tailRecords.contains Sample.genesis &&
    !(firstLoop config data).tailRecords.contains Sample.genesis

/-- Where the record is built and erases the genesis record, that is an addition of a run. -/
theorem exists_first_erasesDeep (config : Config)
    (hstart : (construct (Sample.peer config) Sample.ambient Backend.empty ()).2 = .ok ())
    (hbuild : ((firstBuilt config).2.toOption.bind Except.toOption).any (firstErases config)
      = true) :
    ∃ data t, Adds (Sample.peer config) Backend.empty () Sample.ambient (firstRecord config data)
        true (firstState config) ∧
      ErasesDeep (Sample.peer config) Sample.ambient (firstRecord config data) true
        (firstState config) Sample.genesis t (firstLoop config data) := by
  have hruns : RunsTo (Sample.peer config) Backend.empty () (ReturnsNew (Sample.peer config))
      (firstState config) := RunsTo.start (Outcome.eq_of_returns hstart)
  have hnew : CreatesNew (Sample.peer config) (firstState config)
      (.createRecord Sample.ambient Sample.freshRecord) :=
    ⟨Sample.freshRecord_fresh, fun _ data _ _ =>
      construct_unknown (Outcome.eq_of_returns hstart) (Sample.ndn.fullName data)⟩
  -- the evaluation excludes all ends of the call but a signature
  rcases hbuilt : firstBuilt config with ⟨built, f | code | data⟩
  · rw [hbuilt] at hbuild
    cases hbuild
  · rw [hbuilt] at hbuild
    cases hbuild
  rw [hbuilt] at hbuild
  have herases : firstErases config data = true := hbuild
  simp only [firstErases, Bool.and_eq_true, Bool.not_eq_true'] at herases
  obtain ⟨⟨⟨hfresh, hreturns⟩, htail⟩, hgone⟩ := herases
  rw [Std.TreeMap.contains_eq_isSome_getElem?, Option.isSome_iff_exists] at htail
  rw [Std.TreeMap.contains_eq_isSome_getElem?, Option.isSome_eq_false_iff,
    Option.isNone_iff_eq_none] at hgone
  obtain ⟨t, ht⟩ := htail
  have hwalk : firstWalk config data = ((firstWalk config data).1, .ok ()) := by
    rcases hw : firstWalk config data with ⟨w, f | ⟨⟨⟩⟩⟩
    · rw [hw] at hreturns
      cases hreturns
    · rfl
  refine ⟨data, t, ?_, hfresh, ⟨(firstWalk config data).1, hwalk, ht, rfl⟩, hgone⟩
  have hrecord : firstRecord config data = { built with data := some data } := by
    rw [firstRecord, hbuilt]
  rw [hrecord]
  exact Adds.create hruns hnew hbuilt

/-- The genesis record is confirmed and then erased, with one producer more than the contribution
policy permits. -/
theorem erasesDeep_iff_first :
    let config := Sample.config 1 0 1
    ∃ data t, ErasesDeep (Sample.peer config) Sample.ambient (firstRecord config data) true
        (firstState config) Sample.genesis t (firstLoop config data) ∧
      ((config.contributionWeight < t.refSet.card ∧
        t.record ∈ (firstLoop config data).confirmations) ↔ config.RightThresholds) := by
  intro config
  obtain ⟨data, t, hadds, herases⟩ :=
    exists_first_erasesDeep config (by decide +kernel) (by decide +kernel)
  exact ⟨data, t, herases, erasesDeep_iff ⟨by decide, by decide⟩ hadds herases⟩

/-- A `contributionWeight` whose successor an `int` does not hold, and a `confirmWeight` of `0`. -/
def wideConfig : Config := Sample.config 1 (2 ^ 31 - 1) 1
def zeroConfig : Config := Sample.config 1 0 0

/-- **With these weights the first record erases the genesis record: with one of them while the
contribution policy still permits references to it, with the other one unconfirmed.** -/
theorem not_erasesDeep_wide_zero :
    (∃ data t, Adds (Sample.peer wideConfig) Backend.empty () Sample.ambient
        (firstRecord wideConfig data) true (firstState wideConfig) ∧
      ErasesDeep (Sample.peer wideConfig) Sample.ambient (firstRecord wideConfig data) true
        (firstState wideConfig) Sample.genesis t (firstLoop wideConfig data) ∧
      ¬ wideConfig.contributionWeight < t.refSet.card) ∧
    (∃ data t, Adds (Sample.peer zeroConfig) Backend.empty () Sample.ambient
        (firstRecord zeroConfig data) true (firstState zeroConfig) ∧
      ErasesDeep (Sample.peer zeroConfig) Sample.ambient (firstRecord zeroConfig data) true
        (firstState zeroConfig) Sample.genesis t (firstLoop zeroConfig data) ∧
      t.record ∉ (firstLoop zeroConfig data).confirmations) := by
  constructor
  · obtain ⟨data, t, hadds, herases⟩ :=
      exists_first_erasesDeep wideConfig (by decide +kernel) (by decide +kernel)
    refine ⟨data, t, hadds, herases, ?_⟩
    have hweight : ¬ wideConfig.contributionWeight < wideConfig.leaveWeight := by decide
    rw [(hadds.weight herases).1]
    exact hweight
  · obtain ⟨data, t, hadds, herases⟩ :=
      exists_first_erasesDeep zeroConfig (by decide +kernel) (by decide +kernel)
    refine ⟨data, t, hadds, herases, ?_⟩
    have hnever : ¬ (1 ≤ zeroConfig.confirmWeight) := by decide
    intro hmem
    exact hnever ((hadds.weight herases).2.1 hmem).1

end LedgerImpl

end DLedger
