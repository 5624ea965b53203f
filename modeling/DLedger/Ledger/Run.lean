import DLedger.Ledger.Safe

set_option autoImplicit false

/-! # The runs of a ledger

A run starts with the constructor and goes on with calls in any order. Each call takes its
own clock, callbacks and random engine, so a clock that advances between calls is part of
every run. A run ends where an exception escapes a call.
-/

namespace DLedger

open Tlv (Bytes Block)

namespace LedgerImpl

variable {σ : Type} {P : Peer σ} {amb : Ambient} {s s' : LedgerImpl σ}

/-! ## Calls -/

/-- A call of a ledger: by the application, by an incoming packet, or by the timer that sends
the sync Interests. -/
inductive Call where
  | createRecord (amb : Ambient) (record : Record)
  | onFetchedRecord (amb : Ambient) (data : Data)
  | onLedgerSyncRequest (amb : Ambient) (interest : Interest)
  | onRecordRequest (amb : Ambient) (interest : Interest)
  | sendSyncInterest (amb : Ambient)

def Call.ambient : Call → Ambient
  | createRecord amb _ => amb
  | onFetchedRecord amb _ => amb
  | onLedgerSyncRequest amb _ => amb
  | onRecordRequest amb _ => amb
  | sendSyncInterest amb => amb

/-- What a call does to the ledger; its return code is left out. -/
def call (P : Peer σ) : Call → LedgerImpl σ → LedgerImpl σ × Except Fault Unit
  | .createRecord amb record, s =>
      let out := LedgerImpl.createRecord P amb record s
      (out.1, out.2.2.map fun _ => ())
  | .onFetchedRecord amb data, s => LedgerImpl.onFetchedRecord P amb data s
  | .onLedgerSyncRequest _ interest, s => LedgerImpl.onLedgerSyncRequest P interest s
  | .onRecordRequest _ interest, s => LedgerImpl.onRecordRequest P interest s
  | .sendSyncInterest amb, s => ((LedgerImpl.sendSyncInterest amb s).1, .ok ())

/-- Every write to the database succeeds. -/
def Ambient.Writes (amb : Ambient) : Prop := ∀ n, amb.putOk n = true

/-- The calls of the runs below: writes succeed, a record to create is fresh, and its packet
is new when it is signed, so unless it is a tailing record it is neither stored nor waits in
the sync stack. -/
def Admissible (P : Peer σ) (s : LedgerImpl σ) : Call → Prop
  | .createRecord amb record => Ambient.Writes amb ∧ record.Fresh P.ndn ∧
      ∀ record' data, buildRecord P amb record s = (record', .ok (.ok data)) →
        s.tailRecords[P.ndn.fullName data]? = none → Unknown P s (P.ndn.fullName data)
  | c => Ambient.Writes c.ambient

/-- A call that returns. -/
def Step (P : Peer σ) (s s' : LedgerImpl σ) : Prop :=
  ∃ c, Admissible P s c ∧ call P c s = (s', .ok ())

/-- A call that returns, at a time in a window. -/
def StepWithin (P : Peer σ) (first last : Int) (s s' : LedgerImpl σ) : Prop :=
  ∃ c, Admissible P s c ∧ first ≤ c.ambient.now ∧ c.ambient.now ≤ last ∧
    call P c s = (s', .ok ())

theorem StepWithin.step {first last : Int} (h : StepWithin P first last s s') : Step P s s' := by
  obtain ⟨c, hc, _, _, hrun⟩ := h
  exact ⟨c, hc, hrun⟩

/-- A packet that is received in the window. -/
theorem StepWithin.onFetchedRecord {first last : Int} {data : Data} (hput : Ambient.Writes amb)
    (hfirst : first ≤ amb.now) (hlast : amb.now ≤ last)
    (h : (LedgerImpl.onFetchedRecord P amb data s).2 = .ok ()) :
    StepWithin P first last s (LedgerImpl.onFetchedRecord P amb data s).1 :=
  ⟨.onFetchedRecord amb data, hput, hfirst, hlast, Outcome.eq_of_returns h⟩

/-- The states between the calls of a run that starts on a database. -/
inductive Reachable (P : Peer σ) (db : Backend) (certManager : σ) : LedgerImpl σ → Prop where
  | start {amb : Ambient} {s : LedgerImpl σ} (writes : Ambient.Writes amb)
      (h : construct P amb db certManager = (s, .ok ())) : Reachable P db certManager s
  | step {s s' : LedgerImpl σ} (h : Reachable P db certManager s) (hs : Step P s s') :
      Reachable P db certManager s'

/-- The states of the runs whose calls are allowed where they are made. -/
inductive ReachableBy (P : Peer σ) (db : Backend) (certManager : σ)
    (allowed : LedgerImpl σ → Call → Prop) : LedgerImpl σ → Prop where
  | start {amb : Ambient} {s : LedgerImpl σ} (writes : Ambient.Writes amb)
      (h : construct P amb db certManager = (s, .ok ())) : ReachableBy P db certManager allowed s
  | step {s s' : LedgerImpl σ} {c : Call} (h : ReachableBy P db certManager allowed s)
      (admissible : Admissible P s c) (hc : allowed s c) (hrun : call P c s = (s', .ok ())) :
      ReachableBy P db certManager allowed s'

theorem ReachableBy.reachable {db : Backend} {certManager : σ}
    {allowed : LedgerImpl σ → Call → Prop} (h : ReachableBy P db certManager allowed s) :
    Reachable P db certManager s := by
  induction h with
  | start writes h => exact Reachable.start writes h
  | step _ hadmissible _ hrun ih => exact ih.step ⟨_, hadmissible, hrun⟩

theorem Admissible.writes {c : Call} (h : Admissible P s c) : Ambient.Writes c.ambient := by
  cases c with
  | createRecord amb record => exact h.1
  | onFetchedRecord amb data => exact h
  | onLedgerSyncRequest amb interest => exact h
  | onRecordRequest amb interest => exact h
  | sendSyncInterest amb => exact h

/-! ## Calls are safe -/

theorem createRecord_safe (hs : LedgerInv P s) {record : Record}
    (h : Admissible P s (.createRecord amb record)) :
    Safe (Move P amb) s (call P (.createRecord amb record) s) := by
  obtain ⟨hput, hfresh, hnew⟩ := h
  have hdef := buildRecord_defined P amb record s
  simp only [call, LedgerImpl.createRecord]
  rcases hbuild : buildRecord P amb record s with ⟨record', f | code | data⟩
  · rw [hbuild] at hdef
    exact Safe.error fun hf => hdef (congrArg Except.error hf)
  · exact Safe.ok Relation.ReflTransGen.refl
  · have hbuilt := buildRecord_built hfresh hbuild
    have hadd := addToTailingRecord_defined amb hs.tail true hbuilt.data_eq
      fun hnone hname =>
        hs.ledgerHeld.ready_built hbuilt hnone (hnew _ _ hbuild hnone).1 (hname rfl)
    rcases hrun : addToTailingRecord P amb { record' with data := some data } true s with
      ⟨s₁, f | ⟨⟨⟩⟩⟩
    · rw [hrun] at hadd
      simp only [hrun]
      exact Safe.error fun hf => hadd (congrArg Except.error hf)
    · have hmove : Moves P amb s s₁ :=
        Relation.ReflTransGen.single (Move.create hbuilt (hnew _ _ hbuild) hrun)
      have hsend := hmove.trans
        (ReceiveMoves.moves (sendSyncInterest_moves P amb (fun _ => True) s₁))
      simp only [hrun]
      rcases hsync : LedgerImpl.sendSyncInterest amb s₁ with ⟨s₂, _ | _ | _ | _⟩ <;>
        · rw [hsync] at hsend
          exact Safe.ok hsend

section Calls

variable (hpos : 1 ≤ P.config.confirmWeight) (hsmall : P.config.SmallWeights)
include hpos hsmall

/-- **Every call is safe.** -/
theorem call_safe (hs : LedgerInv P s) {c : Call} (h : Admissible P s c) :
    Safe (Move P c.ambient) s (call P c s) := by
  cases c with
  | createRecord amb record => exact createRecord_safe hs h
  | onFetchedRecord amb data =>
      exact (onFetchedRecord_safe (fun _ => True) hpos hsmall h hs trivial).receive
  | onLedgerSyncRequest amb interest =>
      exact (onLedgerSyncRequest_safe (fun _ => True) interest s).receive
  | onRecordRequest amb interest =>
      exact (onRecordRequest_safe (fun _ => True) hs.tail interest).receive
  | sendSyncInterest amb => exact (Safe.ok (sendSyncInterest_moves P amb (fun _ => True) s)).receive

/-- The moves of a call that returns. -/
theorem call_moves (hs : LedgerInv P s) {c : Call} (hc : Admissible P s c)
    (hrun : call P c s = (s', .ok ())) : Moves P c.ambient s s' := by
  have hsafe := (call_safe hpos hsmall hs hc).moves
  rw [hrun] at hsafe
  exact hsafe () rfl

theorem Step.moves (hs : LedgerInv P s) (h : Step P s s') :
    ∃ amb, Ambient.Writes amb ∧ Moves P amb s s' := by
  obtain ⟨c, hc, hrun⟩ := h
  exact ⟨c.ambient, hc.writes, call_moves hpos hsmall hs hc hrun⟩

theorem LedgerInv.step (hs : LedgerInv P s) (h : Step P s s') : LedgerInv P s' := by
  obtain ⟨amb, hput, hmoves⟩ := h.moves hpos hsmall hs
  exact hs.moves hpos hsmall hput hmoves

end Calls

/-! ## The constructor -/

/-- A constructor that returns has compared the weights and added the genesis records. -/
theorem construct_ok {db : Backend} {certManager : σ}
    (h : construct P amb db certManager = (s, .ok ())) :
    P.config.appendWeight ≤ P.config.contributionWeight ∧
      ∃ s₁, Outcome.forEach (addGenesis P amb) (List.range P.config.numGenesisBlock)
        (blank db certManager) = (s₁, .ok ()) ∧ s = (sendSyncInterest amb s₁).1 := by
  unfold construct at h
  by_cases hweights : P.config.contributionWeight < P.config.appendWeight
  · simp only [if_pos hweights] at h
    cases h
  simp only [if_neg hweights] at h
  rcases hrun : Outcome.forEach (addGenesis P amb) (List.range P.config.numGenesisBlock)
      (blank db certManager) with ⟨s₁, f | ⟨⟨⟩⟩⟩
  · rw [hrun] at h
    cases h
  · rw [hrun] at h
    cases h
    exact ⟨not_lt.1 hweights, s₁, rfl, rfl⟩

/-- What holds while the constructor adds the genesis records. -/
structure GenesisPhase (P : Peer σ) (db : Backend) (certManager : σ) (s : LedgerImpl σ) :
    Prop where
  inv : TailInv P s
  pointerless : ∀ (n : Name) (t : TailingRecordState), s.tailRecords[n]? = some t →
    t.record.recordPointers = []
  type_eq : ∀ (n : Name) (t : TailingRecordState), s.tailRecords[n]? = some t →
    t.record.type = .genesisRecord ∧ t.recordEndorseVerified = true
  syncStack : s.syncStack = []
  backend : s.backend = db
  certManager : s.certManager = certManager
  lastCertRecords : s.lastCertRecords = []
  confirmations : s.confirmations = []

/-- A genesis record with its packet. -/
theorem genesisData_ok {i : Nat} {record : Record} (h : genesisData P i = .ok record) :
    record.type = .genesisRecord ∧ record.recordPointers = [] ∧
      ∃ d, record.data = some d ∧ (RecordName.check (P.ndn.fullName d) = .ok () →
        Record.Named P.ndn (P.ndn.fullName d) record) := by
  obtain ⟨hne, halpha⟩ := toString_alphanumeric i
  unfold genesisData at h
  simp only at h
  cases hcontent : (genesisRecord (toString i)).wireEncode with
  | error e => rw [hcontent] at h; cases h
  | ok content =>
      rw [hcontent] at h
      cases h
      refine ⟨rfl, rfl, _, rfl, fun hcheck => ?_⟩
      exact named_of_encoded genesisPrefix 0
        (P.ndn.ofUri_alphanumeric _ hne halpha) rfl rfl hcontent hcheck

/-- One genesis record: it is a tailing record already, or it is added to the tail. -/
theorem addGenesis_cases {i : Nat} (h : addGenesis P amb i s = (s', .ok ())) :
    ∃ record d, genesisData P i = .ok record ∧ record.type = .genesisRecord ∧
      record.recordPointers = [] ∧ record.data = some d ∧
      (RecordName.check (P.ndn.fullName d) = .ok () →
        Record.Named P.ndn (P.ndn.fullName d) record) ∧
      (s' = s ∧ (∃ t, s.tailRecords[P.ndn.fullName d]? = some t) ∨
        s.tailRecords[P.ndn.fullName d]? = none ∧
          addToTailingRecord P amb record true s = (s', .ok ())) := by
  unfold addGenesis at h
  cases hdata : genesisData P i with
  | error e => rw [hdata] at h; cases h
  | ok record =>
      rw [hdata] at h
      obtain ⟨htype, hpointers, d, hd, hnamed⟩ := genesisData_ok hdata
      refine ⟨record, d, rfl, htype, hpointers, hd, hnamed, ?_⟩
      cases hfresh : s.tailRecords[P.ndn.fullName d]? with
      | some t =>
          simp only [addToTailingRecord_of_tail hd hfresh] at h
          cases h
          exact Or.inl ⟨rfl, t, rfl⟩
      | none => exact Or.inr ⟨rfl, h⟩

/-- While no tailing record has pointers, a genesis record is ready unless it is in the tail. -/
theorem addGenesis_added (hs : TailSound P.ndn s.tailRecords.lookup)
    (hpointerless : ∀ (n : Name) (t : TailingRecordState), s.tailRecords[n]? = some t →
      t.record.recordPointers = []) {i : Nat} (h : addGenesis P amb i s = (s', .ok ())) :
    ∃ record n, genesisData P i = .ok record ∧ record.getRecordName P.ndn = n ∧
      (s' = s ∧ (∃ t, s.tailRecords[n]? = some t) ∨ ∃ marked names mid,
        record.type = .genesisRecord ∧ record.recordPointers = [] ∧ AddReady P s record true n ∧
          Added P amb record true n s s' marked names mid) := by
  obtain ⟨record, d, hdata, htype, hpointers, hd, hnamed, hsame | ⟨hfresh, hadd⟩⟩ :=
    addGenesis_cases h
  · exact ⟨record, _, hdata, by rw [Record.getRecordName, hd], Or.inl hsame⟩
  · obtain ⟨hr, _, marked, names, mid, hadded⟩ := added_of_ok hs hd hfresh
      (fun hname => ⟨hnamed (hname rfl), hname, hfresh, by simp [hpointers],
        by simp [hpointers], fun m t ht => by simp [hpointerless m t ht]⟩)
      (fun _ => hpointers) hadd
    exact ⟨record, _, hdata, by rw [Record.getRecordName, hd],
      Or.inr ⟨marked, names, mid, htype, hpointers, hr, hadded⟩⟩

section Reachable

variable (hpos : 1 ≤ P.config.confirmWeight) (hsmall : P.config.SmallWeights)
include hpos hsmall

theorem GenesisPhase.added {db : Backend} {certManager : σ} {record : Record} {n : Name}
    {marked : Finset Name} {names : List Name} {mid : TailMap} (hput : Ambient.Writes amb)
    (hs : GenesisPhase P db certManager s) (htype : record.type = .genesisRecord)
    (hpointers : record.recordPointers = []) (hr : AddReady P s record true n)
    (h : Added P amb record true n s s' marked names mid) :
    GenesisPhase P db certManager s' := by
  -- a record without pointers marks nothing, so it confirms nothing
  have hempty : confirmedRecords P amb record true n s marked names = [] := by
    rw [List.eq_nil_iff_forall_not_mem]
    intro r hr
    obtain ⟨x, hx, _⟩ := h.mem_confirmedRecords.1 hr
    rw [h.marked_eq_empty hpointers] at hx
    exact absurd hx (Finset.notMem_empty x)
  have hrest := h.rest
  rw [hempty] at hrest
  refine ⟨hs.inv.added hpos hput hsmall hr (fun _ _ => hpointers) (by simp [hpointers]) h,
    ?_, ?_, ?_, ?_, ?_, ?_, ?_⟩
  · intro x t' ht'
    rcases h.walked_cases (h.walked_of_tail ht') with ⟨rfl, rfl⟩ | ⟨_, t, ht, rfl⟩
    · exact hpointers
    · rw [ite_mark_record]
      exact hs.pointerless x t ht
  · intro x t' ht'
    rcases h.walked_cases (h.walked_of_tail ht') with ⟨rfl, rfl⟩ | ⟨_, t, ht, rfl⟩
    · exact ⟨htype, rfl⟩
    · rw [ite_mark_record, ite_mark_recordEndorseVerified]
      exact hs.type_eq x t ht
  · rw [h.syncStack, hs.syncStack]
  · rw [hrest]; exact hs.backend
  · rw [hrest]; exact hs.certManager
  · rw [hrest]; exact hs.lastCertRecords
  · rw [h.confirmations_eq, hempty, hs.confirmations]; rfl

omit hpos hsmall in
theorem genesisPhase_blank (db : Backend) (certManager : σ) :
    GenesisPhase P db certManager (blank db certManager) := by
  have hnone : ∀ n : Name, (blank db certManager).tailRecords[n]? = none := by
    intro n
    simp [blank]
  have hsome : ∀ (n : Name) (t : TailingRecordState),
      (blank db certManager).tailRecords[n]? ≠ some t := by
    intro n t ht
    rw [hnone n] at ht
    cases ht
  refine ⟨⟨⟨?_, ?_, ?_, ?_, ?_, ?_, ?_, ?_, ?_⟩, ?_, ?_, ?_⟩, ?_, ?_, rfl, rfl, rfl, rfl, rfl⟩
  all_goals exact fun n t ht => absurd ht (hsome n t)

/-- What the genesis records keep holds after the constructor. -/
theorem construct_induction {db : Backend} {certManager : σ} {I : LedgerImpl σ → Prop}
    (hput : Ambient.Writes amb) (h₀ : I (blank db certManager))
    (hins : ∀ record n a b marked names mid, GenesisPhase P db certManager a → I a →
      record.recordPointers = [] → AddReady P a record true n →
      Added P amb record true n a b marked names mid → I b)
    (h : construct P amb db certManager = (s, .ok ())) :
    ∃ s₁, GenesisPhase P db certManager s₁ ∧ I s₁ ∧ s = (sendSyncInterest amb s₁).1 := by
  obtain ⟨_, s₁, hrun, rfl⟩ := construct_ok h
  obtain ⟨hphase, hI⟩ := Outcome.forEach_ok_invariant
    (fun s => GenesisPhase P db certManager s ∧ I s) (fun i _ a b hab hadd => by
      obtain ⟨record, n, _, _, ⟨rfl, _⟩ | ⟨marked, names, mid, htype, hp, hr, hadded⟩⟩ :=
        addGenesis_added hab.1.inv.sound hab.1.pointerless hadd
      · exact hab
      · exact ⟨hab.1.added hpos hsmall hput htype hp hr hadded,
          hins record n a b marked names mid hab.1 hab.2 hp hr hadded⟩)
    ⟨genesisPhase_blank db certManager, h₀⟩ hrun
  exact ⟨s₁, hphase, hI, rfl⟩

omit hpos hsmall in
theorem GenesisPhase.ledgerInv {db : Backend} {certManager : σ}
    (hs : GenesisPhase P db certManager s) : LedgerInv P s := by
  refine ⟨hs.inv, ⟨?_, ?_, ?_, ?_⟩⟩ <;> simp [hs.syncStack]

omit hpos hsmall in
theorem sendSyncInterest_sameRecords (s : LedgerImpl σ) :
    SameRecords s (sendSyncInterest amb s).1 := by
  unfold sendSyncInterest
  cases amb.signInterest with
  | error reason => exact ⟨rfl, rfl, rfl, rfl, rfl⟩
  | ok u => exact ⟨rfl, rfl, rfl, rfl, rfl⟩

/-- **The invariant holds in every reachable state**, on any database. -/
theorem Reachable.inv {db : Backend} {certManager : σ} (h : Reachable P db certManager s) :
    LedgerInv P s := by
  induction h with
  | @start amb s hput h =>
      obtain ⟨s₁, hphase, _, rfl⟩ := construct_induction (I := fun _ => True) hpos hsmall hput
        trivial (fun _ _ _ _ _ _ _ _ _ _ _ _ => trivial) h
      exact hphase.ledgerInv.receiveMoves hpos hsmall hput
        (sendSyncInterest_moves P _ (fun _ => True) s₁)
  | step _ hstep ih => exact ih.step hpos hsmall hstep

/-- What changes of records keep holds in every state reachable on an empty database. -/
theorem Reachable.induction {certManager : σ} {I : LedgerImpl σ → Prop}
    (h₀ : I (blank Backend.empty certManager))
    (hsame : ∀ a b, I a → SameRecords a b → I b)
    (hins : ∀ amb record endorseVerified n a b marked names mid, Ambient.Writes amb →
      TailInv P a → I a → Inserted P amb record endorseVerified n a b marked names mid → I b)
    (h : Reachable P Backend.empty certManager s) : I s := by
  induction h with
  | @start amb s hput h =>
      obtain ⟨s₁, hphase, hI, rfl⟩ := construct_induction hpos hsmall hput h₀
        (fun record n a b marked names mid ha hIa hp hr hadded =>
          hins amb record true n a b marked names mid hput ha.inv hIa
            ⟨hadded, hr, by rw [ha.backend]; exact Backend.getRecord_empty _ _,
              by simp [hp], fun _ _ => hp⟩) h
      exact hsame _ _ hI (sendSyncInterest_sameRecords s₁)
  | @step a b ha hstep ih =>
      have hinv := ha.inv hpos hsmall
      obtain ⟨amb, hput, hmoves⟩ := hstep.moves hpos hsmall hinv
      exact hinv.moves_induction hpos hsmall hput ih hsame
        (fun record e n a b marked names mid ha => hins amb record e n a b marked names mid
          hput ha.tail) hmoves

end Reachable

end LedgerImpl

end DLedger
