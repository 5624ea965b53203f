import DLedger.Ledger.Create
import DLedger.Ledger.Keep
import DLedger.Ledger.Stored
import DLedger.Lib.Dag

set_option autoImplicit false

/-! # The records of a ledger as a graph

The tail and the database together are a graph of records and pointers. It is closed: every pointer
leads to a record of the graph. It has no cycles, because a record that is added is new, and to what
is new nothing points. And where records have preceding records it is rooted: what has no pointers
is a genesis record. All of this holds on any database that has it.
-/

namespace DLedger

/-- A record of a database points to a name. -/
def Backend.Links (ndn : Ndn) (db : Backend) (n m : Name) : Prop :=
  ∃ d r, db.getRecord ndn n = some d ∧ Record.ofData ndn d = .ok r ∧ m ∈ r.recordPointers

/-- A packet that is a record without pointers is a genesis record. -/
def Rooted (ndn : Ndn) (d : Data) : Prop :=
  ∀ r, Record.ofData ndn d = .ok r → r.recordPointers = [] → r.type = .genesisRecord

/-- A database of records, closed under pointers, without cycles and with genesis records as its
only roots. -/
structure Backend.Graph (ndn : Ndn) (db : Backend) : Prop where
  decoded : ∀ (n : Name) (d : Data), db.getRecord ndn n = some d →
    ∃ r, Record.ofData ndn d = .ok r ∧ ndn.fullName d = n ∧
      ∀ p ∈ r.recordPointers, ∃ d', db.getRecord ndn p = some d'
  acyclic : Dag.Acyclic (Backend.Links ndn db)
  rooted : ∀ (n : Name) (d : Data), db.getRecord ndn n = some d → Rooted ndn d

theorem Backend.graph_empty (ndn : Ndn) : Backend.Graph ndn Backend.empty := by
  have hnone : ∀ (n : Name) (d : Data), Backend.empty.getRecord ndn n ≠ some d := by
    intro n d hd
    rw [Backend.getRecord_empty] at hd
    cases hd
  refine ⟨fun n d hd => absurd hd (hnone n d), fun n hn => ?_, fun n d hd => absurd hd (hnone n d)⟩
  obtain ⟨m, ⟨d, r, hd, _⟩, _⟩ := Relation.TransGen.head'_iff.1 hn
  exact hnone n d hd

namespace LedgerImpl

variable {σ : Type} {P : Peer σ} {amb : Ambient} {s s' : LedgerImpl σ} {record : Record}
  {endorseVerified : Bool} {n : Name} {marked : Finset Name} {names : List Name} {mid : TailMap}

/-- A ledger has a record under a name, in its tail or in its database. -/
def Holds (P : Peer σ) (s : LedgerImpl σ) (n : Name) (r : Record) : Prop :=
  (∃ t, s.tailRecords[n]? = some t ∧ t.record = r) ∨
    ∃ d, s.backend.getRecord P.ndn n = some d ∧ Record.ofData P.ndn d = .ok r

/-- A record of the ledger points to a name. -/
def Links (P : Peer σ) (s : LedgerImpl σ) (n m : Name) : Prop :=
  ∃ r, Holds P s n r ∧ m ∈ r.recordPointers

/-! ## Records with preceding records -/

/-- Records have preceding records, and an `int` can hold how many. -/
def Precedes (config : Config) : Prop :=
  1 ≤ config.precedingRecordNum ∧ config.precedingRecordNum < 2 ^ 31

/-- A received record that passes the check has pointers. -/
theorem rooted_checked (hnum : Precedes P.config) {data : Data}
    (h : checkSyntaxValidityOfRecord P amb data s = .ok true) : Rooted P.ndn data := by
  intro record hdec hpointers
  have hcount : ofInt (toInt P.config.precedingRecordNum) = P.config.precedingRecordNum := by
    rw [toInt_of_lt hnum.2, ofInt_natCast (lt_trans hnum.2 (by decide))]
  have hne : P.config.precedingRecordNum ≠ 0 := Nat.one_le_iff_ne_zero.1 hnum.1
  unfold checkSyntaxValidityOfRecord parseRecord at h
  simp [hdec, bind, Except.bind, Record.checkPointerCount, hcount, hpointers, hne.symm] at h

theorem addPointers_ne_nil {num : Nat} {candidates : List (Name × Nat)} {record' : Record}
    (hcandidates : candidates ≠ []) (h : addPointers num candidates record = .ok record') :
    record'.recordPointers ≠ [] := by
  cases candidates with
  | nil => exact absurd rfl hcandidates
  | cons candidate candidates =>
      rw [addPointers, Record.addPointer] at h
      by_cases hdata : record.data.isSome = true
      · rw [if_pos hdata] at h
        cases h
      rw [if_neg hdata] at h
      dsimp only [bind, Except.bind, pure, Except.pure] at h
      split_ifs at h
      · cases h
        simp
      · obtain ⟨pointers, rfl, _⟩ := addPointers_ok h
        simp

/-- So does a record that is created. -/
theorem rooted_built (hnum : 1 ≤ P.config.precedingRecordNum) {record' : Record} {data : Data}
    (h : buildRecord P amb record s = (record', .ok (.ok data))) : Rooted P.ndn data := by
  obtain ⟨items, hpointers, hlen, _, hcontent⟩ := buildRecord_ok h
  obtain ⟨hheader, _⟩ := Record.decode_wireEncode P.ndn hcontent
  intro r hdec hnil
  rw [(Record.ofData_eq_ok hdec).2.2.2.1, Except.ok.injEq] at hheader
  rw [hnil] at hheader
  refine absurd hheader.symm (addPointers_ne_nil (fun hempty => ?_) hpointers)
  have hperm := (amb.shuffle_perm (recordList P s)).length_eq
  rw [hempty, List.length_nil] at hperm
  omega

/-- A genesis record is one. -/
theorem rooted_genesis {k : Nat} {d : Data} (h : genesisData P k = .ok record)
    (hd : record.data = some d) : Rooted P.ndn d := by
  obtain ⟨hne, halpha⟩ := toString_alphanumeric k
  have hid := P.ndn.ofUri_alphanumeric _ hne halpha
  intro r hdec _
  unfold genesisData at h
  simp only at h
  cases hcontent : (genesisRecord (toString k)).wireEncode with
  | error e => rw [hcontent] at h; cases h
  | ok content =>
      rw [hcontent] at h
      cases h
      cases hd
      rw [(Record.ofData_eq_ok hdec).2.2.1]
      exact (read_build hid genesisPrefix .genesisRecord 0).1

/-- The packet of a record, if it has one, is rooted. -/
def RootedRecord (ndn : Ndn) (r : Record) : Prop := ∀ d, r.data = some d → Rooted ndn d

theorem rooted_frame : CallFrame P
    (fun s => ∀ (m : Name) (d : Data), s.backend.getRecord P.ndn m = some d → Rooted P.ndn d)
    (RootedRecord P.ndn) (RootedRecord P.ndn) where
  withTail _ _ h := h
  withStack _ _ h := h
  quiet _ _ _ h := h
  insert _ _ _ _ h := h
  confirm amb record s hr h m d hd := by
    rcases onRecordConfirmed_getRecord P amb hd with hd | ⟨hdata, _⟩
    · exact h m d hd
    · exact hr d hdata
  blank := fun d hd => by cases hd
  waiting _ h := h

theorem Reachable.runsTo {db : Backend} {certManager : σ} (h : Reachable P db certManager s) :
    RunsTo P db certManager (Admissible P) s := by
  induction h with
  | start _ hstart => exact RunsTo.start hstart
  | @step s s' _ hstep ih =>
      obtain ⟨c, hc, hrun⟩ := hstep
      have hcall := ih.call hc
      rw [hrun] at hcall
      exact hcall

/-- **Every run on a rooted database keeps the ledger rooted.** -/
theorem Reachable.rooted {db : Backend} {certManager : σ} (hnum : Precedes P.config)
    (hdb : ∀ (m : Name) (d : Data), db.getRecord P.ndn m = some d → Rooted P.ndn d)
    (h : Reachable P db certManager s) :
    Keeps (fun s => ∀ (m : Name) (d : Data), s.backend.getRecord P.ndn m = some d →
      Rooted P.ndn d) (RootedRecord P.ndn) (RootedRecord P.ndn) s := by
  refine h.runsTo.keeps rooted_frame hdb (fun k record hrecord d hd => rooted_genesis hrecord hd)
    fun s c _ _ => ?_
  cases c with
  | createRecord amb record =>
      intro record' data hbuild d hd
      cases hd
      exact rooted_built hnum.1 hbuild
  | onFetchedRecord amb data =>
      intro record hdec _ hcheck d hd
      rw [(Record.ofData_eq_ok hdec).2.1] at hd
      cases hd
      exact rooted_checked hnum hcheck
  | onLedgerSyncRequest amb interest => trivial
  | onRecordRequest amb interest => trivial
  | sendSyncInterest amb => trivial

/-! ## The graph -/

/-- Stored records are decoded packets whose pointers are stored, and there are no cycles. -/
structure LedgerGraph (P : Peer σ) (s : LedgerImpl σ) : Prop where
  decoded : ∀ (m : Name) (d : Data), s.backend.getRecord P.ndn m = some d →
    ∃ r, Record.ofData P.ndn d = .ok r ∧ P.ndn.fullName d = m ∧
      ∀ p ∈ r.recordPointers, ∃ d', s.backend.getRecord P.ndn p = some d'
  acyclic : Dag.Acyclic (Links P s)

theorem LedgerGraph.congr (hs : LedgerGraph P s) (hsame : SameRecords s s') : LedgerGraph P s' := by
  refine ⟨?_, hs.acyclic.mono fun x y ⟨r, hr, hy⟩ => ⟨r, ?_, hy⟩⟩
  · rw [hsame.backend]
    exact hs.decoded
  · rw [Holds, hsame.tailRecords, hsame.backend] at hr
    exact hr

/-- The genesis records have no pointers. -/
theorem GenesisPhase.ledgerGraph {db : Backend} {certManager : σ} (hdb : Backend.Graph P.ndn db)
    (hs : GenesisPhase P db certManager s) : LedgerGraph P s := by
  refine ⟨?_, hdb.acyclic.mono ?_⟩
  · rw [hs.backend]
    exact hdb.decoded
  · rintro x y ⟨r, ⟨t, ht, rfl⟩ | ⟨d, hd, hdec⟩, hy⟩
    · rw [hs.pointerless x t ht] at hy
      exact absurd hy List.not_mem_nil
    · rw [hs.backend] at hd
      exact ⟨d, r, hd, hdec, hy⟩

/-- After an insertion the ledger has the records that it had, and the new one. -/
theorem Inserted.holds_cases (h : Inserted P amb record endorseVerified n s s' marked names mid)
    {x : Name} {r : Record} (hx : Holds P s' x r) : Holds P s x r ∨ x = n ∧ r = record := by
  rcases hx with ⟨t, ht, rfl⟩ | ⟨d, hd, hdec⟩
  · rcases h.walked_cases (h.walked_of_tail ht) with ⟨rfl, rfl⟩ | ⟨_, u, hu, rfl⟩
    · exact Or.inr ⟨rfl, rfl⟩
    · rw [ite_mark_record]
      exact Or.inl (Or.inl ⟨u, hu, rfl⟩)
  · rcases h.backend_cases hd with ⟨t, hcross, hdata⟩ | hd
    · obtain ⟨u, hu, hrecord, _⟩ := h.of_crosses hcross
      have hr := ((h.named x t hcross.2.1).ofData_eq hdata).1
      rw [hdec] at hr
      cases hr
      exact Or.inl (Or.inl ⟨u, hu, hrecord.symm⟩)
    · exact Or.inl (Or.inr ⟨d, hd, hdec⟩)

/-- Nothing points to a record that is new. -/
theorem Inserted.unlinked (hs : LedgerGraph P s)
    (h : Inserted P amb record endorseVerified n s s' marked names mid) (x : Name) :
    ¬ Links P s' x n := by
  rintro ⟨r, hr, hn⟩
  rcases h.holds_cases hr with (⟨t, ht, rfl⟩ | ⟨d, hd, hdec⟩) | ⟨_, rfl⟩
  · exact h.ready.unpointed x t ht hn
  · obtain ⟨r', hdec', _, hclosed⟩ := hs.decoded x d hd
    rw [hdec] at hdec'
    cases hdec'
    obtain ⟨d', hd'⟩ := hclosed n hn
    rw [h.unstored] at hd'
    cases hd'
  · rcases h.held n hn with ⟨u, hu⟩ | ⟨d, hd⟩
    · rw [h.ready.fresh] at hu
      cases hu
    · rw [h.unstored] at hd
      cases hd

/-- **An insertion keeps the graph.** -/
theorem LedgerGraph.inserted (hpos : 1 ≤ P.config.confirmWeight) (hput : ∀ m, amb.putOk m = true)
    (hs : LedgerGraph P s) (hinv : TailInv P s)
    (h : Inserted P amb record endorseVerified n s s' marked names mid) : LedgerGraph P s' where
  decoded x d hx := by
    rcases h.backend_cases hx with ⟨t, hcross, hdata⟩ | hx
    · obtain ⟨hdec, hname⟩ := (h.named x t hcross.2.1).ofData_eq hdata
      exact ⟨t.record, hdec, hname, h.pointers_stored hpos hput hinv hcross⟩
    · obtain ⟨r, hdec, hname, hclosed⟩ := hs.decoded x d hx
      refine ⟨r, hdec, hname, fun p hp => ?_⟩
      obtain ⟨d', hd'⟩ := hclosed p hp
      exact h.backend_mono hd'
  acyclic := by
    refine hs.acyclic.extend (n := n) ?_ (h.unlinked hs)
    rintro x y ⟨r, hr, hy⟩
    rcases h.holds_cases hr with hold | ⟨rfl, rfl⟩
    · exact Or.inl ⟨r, hold, hy⟩
    · exact Or.inr rfl

end LedgerImpl

end DLedger
