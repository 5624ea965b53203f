import DLedger.Ledger.Create
import DLedger.Ledger.Sample

set_option autoImplicit false

/-! # The three read operations

`getRecord` and `hasRecord` look at the tail first and at the database where the tail has nothing,
`listRecord` looks at the database and hides what the tail has unverified. A verified tailing record
that is not stored yet exists for the first two only.
-/

namespace DLedger

open Tlv (Bytes Block)

/-- The packet of a record decodes, where it has one. -/
def Record.Decodes (ndn : Ndn) (record : Record) : Prop :=
  ∀ d, record.data = some d → ∃ r, Record.ofData ndn d = .ok r

namespace LedgerImpl

variable {σ : Type} {P : Peer σ} {amb : Ambient} {s : LedgerImpl σ} {db : Backend}
  {certManager : σ}

/-! ## Stored packets decode -/

/-- Every packet in a database decodes. -/
def StoredDecodes (ndn : Ndn) (db : Backend) : Prop :=
  ∀ n d, db.getRecord ndn n = some d → ∃ r, Record.ofData ndn d = .ok r

/-- Only packets of confirmed records are stored. -/
theorem storedDecodes_frame : CallFrame P (fun s => StoredDecodes P.ndn s.backend)
    (Record.Decodes P.ndn) (Record.Decodes P.ndn) where
  withTail _ _ h := h
  withStack _ _ h := h
  quiet _ _ _ h := h
  confirm amb record s hr h n d hd := by
    rcases onRecordConfirmed_getRecord P amb hd with hd | ⟨hdata, _⟩
    · exact h n d hd
    · exact hr d hdata
  blank d hd := by cases hd
  waiting _ h := h
  insert _ _ _ _ h := h

/-- Every genesis packet decodes. -/
theorem genesisData_decodes {i : Nat} {record : Record} (h : genesisData P i = .ok record) :
    record.Decodes P.ndn := by
  obtain ⟨hne, halpha⟩ := toString_alphanumeric i
  unfold genesisData at h
  simp only at h
  cases hcontent : (genesisRecord (toString i)).wireEncode with
  | error e => rw [hcontent] at h; cases h
  | ok content =>
      rw [hcontent] at h
      cases h
      intro d hd
      cases hd
      refine Record.exists_ofData ?_ hcontent
      exact check_build (P.ndn.ofUri_alphanumeric _ hne halpha) (by decide)
        (by intro h; cases h) (by norm_num) (by norm_num)

/-- What is only sent keeps it. -/
theorem Keeps.onlySends (h : Keeps (fun s => StoredDecodes P.ndn s.backend)
      (Record.Decodes P.ndn) (Record.Decodes P.ndn) s) {s' : LedgerImpl σ} {events : List Event}
    (hsends : OnlySends P s s' events) :
    Keeps (fun s => StoredDecodes P.ndn s.backend) (Record.Decodes P.ndn) (Record.Decodes P.ndn)
      s' := by
  rw [hsends.eq]
  exact ⟨h.holds, h.tail, h.stack⟩

/-- A call of `createRecord` that returns adds a packet that decodes, or none. -/
theorem createRecord_keeps (h : Keeps (fun s => StoredDecodes P.ndn s.backend)
      (Record.Decodes P.ndn) (Record.Decodes P.ndn) s) {record : Record}
    (hreturns : CallReturns P s (.createRecord amb record)) :
    Keeps (fun s => StoredDecodes P.ndn s.backend) (Record.Decodes P.ndn) (Record.Decodes P.ndn)
      (call P (.createRecord amb record) s).1 := by
  rcases createRecord_cases (Outcome.eq_of_returns hreturns) with
    ⟨events, hsends⟩ | ⟨built, data, s₁, events, hbuild, htail, hadd, hsends⟩
  · exact h.onlySends hsends
  obtain ⟨items, _, _, _, hcontent⟩ := buildRecord_ok hbuild
  refine h.call storedDecodes_frame fun record₁ data₁ hok => ?_
  rw [hbuild] at hok
  cases hok
  cases hcheck : RecordName.check (P.ndn.fullName data) with
  | ok u =>
      intro d hd
      cases hd
      exact Record.exists_ofData (RecordName.check_of_check_fullName hcheck) hcontent
  | error e =>
      rw [addToTailingRecord_throws rfl htail hcheck] at hadd
      cases hadd

/-- Stored packets decode along every run whose calls return, when they do at its start. -/
theorem RunsTo.storedDecodes (hdb : StoredDecodes P.ndn db)
    (h : RunsTo P db certManager (CallReturns P) s) :
    StoredDecodes P.ndn s.backend := by
  have hkeeps : Keeps (fun s => StoredDecodes P.ndn s.backend) (Record.Decodes P.ndn)
      (Record.Decodes P.ndn) s := by
    induction h with
    | @start amb s hstart =>
        have hconstruct : Keeps (fun s => StoredDecodes P.ndn s.backend) (Record.Decodes P.ndn)
            (Record.Decodes P.ndn) (construct P amb db certManager).1 :=
          Keeps.construct storedDecodes_frame hdb fun i record => genesisData_decodes
        rw [hstart] at hconstruct
        exact hconstruct
    | @call s c _ hreturns ih =>
        cases c with
        | createRecord amb record => exact createRecord_keeps ih hreturns
        | onFetchedRecord amb data =>
            refine ih.call storedDecodes_frame fun record hdec _ _ d hd => ?_
            rw [(Record.ofData_eq_ok hdec).2.1] at hd
            cases hd
            exact ⟨record, hdec⟩
        | onLedgerSyncRequest amb interest => exact ih.call storedDecodes_frame trivial
        | onRecordRequest amb interest => exact ih.call storedDecodes_frame trivial
        | sendSyncInterest amb => exact ih.call storedDecodes_frame trivial
  exact hkeeps.holds

/-! ## What is read -/

/-- A record is read exactly where it is there. -/
theorem getRecord_iff_hasRecord (hstored : StoredDecodes P.ndn s.backend) (n : Name) :
    (∃ r, s.getRecord P n = .ok (some r)) ↔ s.hasRecord P (P.ndn.toUri n) = true := by
  rw [hasRecord, P.ndn.ofUri_toUri, getRecord]
  cases htail : s.tailRecords[n]? with
  | some t => cases hv : t.parentEndorseVerified <;> simp [hv]
  | none =>
      cases hd : s.backend.getRecord P.ndn n with
      | none => simp
      | some d =>
          obtain ⟨r, hr⟩ := hstored n d hd
          simp [hr, Except.map]

/-- The listing of the database under a prefix is exact. -/
def ListsExactly (ndn : Ndn) (db : Backend) (p : Name) : Prop :=
  ∀ n, n ∈ db.listRecord ndn p ↔ (∃ d, db.getRecord ndn n = some d) ∧ p <+: n

/-- What is listed is stored and not unverified in the tail. -/
theorem mem_listRecord_iff {p : Name} (hlist : ListsExactly P.ndn s.backend p) (n : Name) :
    n ∈ s.listRecord P (P.ndn.toUri p) ↔ ((∃ d, s.backend.getRecord P.ndn n = some d) ∧ p <+: n) ∧
      ∀ t, s.tailRecords[n]? = some t → t.parentEndorseVerified = true := by
  rw [listRecord, P.ndn.ofUri_toUri, List.mem_filter, hlist]
  cases s.tailRecords[n]? <;> simp

/-- **The three operations agree on a name and a prefix exactly when the name is not that of a
verified tailing record under the prefix that is not stored.** -/
theorem reads_agree_iff (hdb : StoredDecodes P.ndn db)
    (h : RunsTo P db certManager (CallReturns P) s) {p : Name}
    (hlist : ListsExactly P.ndn s.backend p) (n : Name) :
    (((∃ r, s.getRecord P n = .ok (some r)) ↔ s.hasRecord P (P.ndn.toUri n) = true) ∧
      (n ∈ s.listRecord P (P.ndn.toUri p) ↔
        s.hasRecord P (P.ndn.toUri n) = true ∧ p <+: n)) ↔
      ¬ (p <+: n ∧ s.backend.getRecord P.ndn n = none ∧
        ∃ t, s.tailRecords[n]? = some t ∧ t.parentEndorseVerified = true) := by
  rw [and_iff_right (getRecord_iff_hasRecord (h.storedDecodes hdb) n), mem_listRecord_iff hlist,
    hasRecord_toUri]
  cases hd : s.backend.getRecord P.ndn n with
  | some d =>
      refine iff_of_true ?_ (fun hnone => ?_)
      · cases s.tailRecords[n]? <;> simp [and_comm]
      · cases hnone.2.1
  | none => cases s.tailRecords[n]? <;> simp [and_comm]

/-- A database is listed exactly when it is on the names of its keys. -/
theorem listsExactly_of_keys {ndn : Ndn} {p : Name}
    (huri : ∀ key ∈ db.db.keys, ndn.toUri (ndn.ofUri key) = key)
    (hkeys : ∀ key ∈ db.db.keys, ndn.ofUri key ∈ db.listRecord ndn p ↔ p <+: ndn.ofUri key) :
    ListsExactly ndn db p := by
  have hmem : ∀ key, key ∈ db.db.keys ↔ ∃ d, db.db[key]? = some d := by
    intro key
    rw [Std.TreeMap.mem_keys, Std.TreeMap.mem_iff_isSome_getElem?, Option.isSome_iff_exists]
  have hlisted : ∀ n ∈ db.listRecord ndn p, ∃ key ∈ db.db.keys, ndn.ofUri key = n := by
    intro n hn
    obtain ⟨key, hkey, hname⟩ := List.mem_map.1 hn
    exact ⟨key, (List.dropWhile_sublist _).subset ((List.takeWhile_sublist _).subset hkey), hname⟩
  intro n
  constructor
  · intro hn
    obtain ⟨key, hkey, rfl⟩ := hlisted n hn
    refine ⟨?_, (hkeys key hkey).1 hn⟩
    rw [Backend.getRecord, huri key hkey]
    exact (hmem key).1 hkey
  · rintro ⟨hstored, hp⟩
    have hkey := (hkeys (ndn.toUri n) ((hmem _).2 hstored)).2
    rw [ndn.ofUri_toUri] at hkey
    exact hkey hp

theorem storedDecodes_empty (ndn : Ndn) : StoredDecodes ndn Backend.empty := by
  intro n d hd
  rw [Backend.getRecord_empty] at hd
  cases hd

/-- The ledger of a peer that has only made its genesis record. -/
def started : LedgerImpl Unit :=
  (construct (Sample.peer (Sample.config 1 5 1)) Sample.ambient Backend.empty ()).1

theorem listsExactly_started : ListsExactly Sample.ndn started.backend [] := by
  have hkeys : started.backend.db.keys = [] := by decide +kernel
  refine listsExactly_of_keys ?_ ?_ <;>
    · rw [hkeys]
      exact nofun

theorem runsTo_started : RunsTo (Sample.peer (Sample.config 1 5 1)) Backend.empty ()
    (CallReturns (Sample.peer (Sample.config 1 5 1))) started := by
  have hstart : (construct (Sample.peer (Sample.config 1 5 1)) Sample.ambient Backend.empty ()).2
      = .ok () := by
    decide +kernel
  exact RunsTo.start (Outcome.eq_of_returns hstart)

/-- A reachable state is that of a run whose calls return. -/
theorem Reachable.runsTo_returns (h : Reachable P db certManager s) :
    RunsTo P db certManager (CallReturns P) s := by
  induction h with
  | start _ hstart => exact RunsTo.start hstart
  | @step s s' _ hstep ih =>
      obtain ⟨c, _, hrun⟩ := hstep
      have hcall : RunsTo P db certManager (CallReturns P) (call P c s).1 :=
        ih.call (congrArg Prod.snd hrun)
      rw [hrun] at hcall
      exact hcall

/-- The ledger that has stored a record and has another one on it in the tail. -/
def oneStored : LedgerImpl Unit :=
  (Sample.run (Sample.peer (Sample.config 1 5 1)) () Sample.twoPackets).1

def storedName : Name := Sample.ndn.fullName (Sample.packet 97 0 [Sample.genesis])

def tailingName : Name := Sample.ndn.fullName (Sample.packet 98 0 [storedName])

theorem runsTo_oneStored : RunsTo (Sample.peer (Sample.config 1 5 1)) Backend.empty ()
    (CallReturns (Sample.peer (Sample.config 1 5 1))) oneStored :=
  (Sample.reachable_run (by decide +kernel)).runsTo_returns

/-- The database of that ledger has the genesis record and the stored one. -/
theorem listsExactly_oneStored {p : Name} (hp : p = [.generic [97]] ∨ p = [.generic [98]]) :
    ListsExactly Sample.ndn oneStored.backend p := by
  have hkeys : ∀ p ∈ [[Component.generic [97]], [Component.generic [98]]],
      ∀ key ∈ oneStored.backend.db.keys, Sample.ndn.toUri (Sample.ndn.ofUri key) = key ∧
        (Sample.ndn.ofUri key ∈ oneStored.backend.listRecord Sample.ndn p ↔
          p <+: Sample.ndn.ofUri key) := by
    decide +kernel
  have hmem : p ∈ [[Component.generic [97]], [Component.generic [98]]] := by simpa using hp
  exact listsExactly_of_keys (fun key hkey => (hkeys p hmem key hkey).1)
    fun key hkey => (hkeys p hmem key hkey).2

/-- The reads agree on the stored record and do not on the one in the tail. -/
theorem reads_agree_iff_oneStored :
    let P := Sample.peer (Sample.config 1 5 1)
    let agree := fun p n : Name =>
      ((∃ r, oneStored.getRecord P n = .ok (some r)) ↔
        oneStored.hasRecord P (P.ndn.toUri n) = true) ∧
      (n ∈ oneStored.listRecord P (P.ndn.toUri p) ↔
        oneStored.hasRecord P (P.ndn.toUri n) = true ∧ p <+: n)
    agree [.generic [97]] storedName ∧ ¬ agree [.generic [98]] tailingName := by
  intro P agree
  have hstored : (oneStored.backend.getRecord P.ndn storedName).isSome = true := by decide +kernel
  have htailing : [Component.generic [98]] <+: tailingName ∧
      oneStored.backend.getRecord P.ndn tailingName = none ∧
      (oneStored.tailRecords[tailingName]?).any (·.parentEndorseVerified) = true := by
    decide +kernel
  constructor
  · refine (reads_agree_iff (storedDecodes_empty _) runsTo_oneStored
      (listsExactly_oneStored (Or.inl rfl)) storedName).2 fun hnone => ?_
    rw [hnone.2.1] at hstored
    cases hstored
  · intro hagree
    refine (reads_agree_iff (storedDecodes_empty _) runsTo_oneStored
      (listsExactly_oneStored (Or.inr rfl)) tailingName).1 hagree ⟨htailing.1, htailing.2.1, ?_⟩
    exact (Option.any_eq_true _ _).1 htailing.2.2

/-- **The genesis record is there for `hasRecord` and is never listed before it is confirmed.** -/
theorem not_reads_agree_genesis :
    let P := Sample.peer (Sample.config 1 5 1)
    ¬ ∀ (s : LedgerImpl Unit) (p n : Name), RunsTo P Backend.empty () (CallReturns P) s →
      ListsExactly P.ndn s.backend p →
      (n ∈ s.listRecord P (P.ndn.toUri p) ↔
        s.hasRecord P (P.ndn.toUri n) = true ∧ p <+: n) := by
  intro P hall
  have hhas : started.hasRecord P (P.ndn.toUri Sample.genesis) = true := by decide +kernel
  have hlist : started.listRecord P (P.ndn.toUri []) = [] := by decide +kernel
  have hlisted := (hall started [] Sample.genesis runsTo_started listsExactly_started).2
    ⟨hhas, List.nil_prefix⟩
  rw [hlist] at hlisted
  cases hlisted

end LedgerImpl

end DLedger
