import DLedger.Ledger.Send

set_option autoImplicit false

/-! # The steps of `createRecord`

On a record that has no packet yet `createRecord` adds the last certificate records and then its
pointers, and signs the packet. Each step is an equation here, so that an error exit can be matched
with what was already added.
-/

namespace DLedger

open Tlv (Bytes Block)

namespace LedgerImpl

variable {σ : Type} {P : Peer σ} {amb : Ambient} {s s' : LedgerImpl σ} {record record' : Record}
  {code : ReturnCode}

/-! ## What is added to the record -/

/-- The key locators that a certificate record gets. -/
def certItems (s : LedgerImpl σ) (record : Record) : List Block :=
  if record.type = .certificateRecord then s.lastCertRecords.map KeyLocator.wireEncode else []

def withCerts (s : LedgerImpl σ) (record : Record) : Record :=
  { record with contentItems := record.contentItems ++ certItems s record }

/-- The candidates that become pointers of a record: one is added before the first test. -/
def chosen (P : Peer σ) (amb : Ambient) (s : LedgerImpl σ) (record : Record) : List Name :=
  ((amb.shuffle (recordList P s)).take
    (max 1 (P.config.precedingRecordNum - record.recordPointers.length))).map Prod.fst

def withPointers (P : Peer σ) (amb : Ambient) (s : LedgerImpl σ) (record : Record) : Record :=
  { record with recordPointers := record.recordPointers ++ chosen P amb s record }

theorem addLastCertRecords_eq (certNames : List Name) (hdata : record.data = none) :
    addLastCertRecords certNames record
      = .ok { record with
          contentItems := record.contentItems ++ certNames.map KeyLocator.wireEncode } := by
  induction certNames generalizing record with
  | nil => simp [addLastCertRecords]
  | cons certName certNames ih =>
      simp only [addLastCertRecords, Record.addRecordItem, hdata, Option.isSome_none,
        Bool.false_eq_true, if_false, bind, Except.bind]
      rw [ih rfl]
      simp

/-- The loop takes candidates up to the number of pointers that are missing, and one in any
case. -/
theorem addPointers_eq (num : Nat) (candidates : List (Name × Nat)) (hdata : record.data = none) :
    addPointers num candidates record
      = .ok { record with recordPointers := record.recordPointers ++
          (candidates.take (max 1 (num - record.recordPointers.length))).map Prod.fst } := by
  induction candidates generalizing record with
  | nil => simp [addPointers]
  | cons candidate candidates ih =>
      simp only [addPointers, Record.addPointer, hdata, Option.isSome_none, Bool.false_eq_true,
        if_false, bind, Except.bind, pure, Except.pure]
      have hlen : (record.recordPointers ++ [candidate.1]).length
          = record.recordPointers.length + 1 := by
        simp
      by_cases hnum : num ≤ (record.recordPointers ++ [candidate.1]).length
      · have hmax : max 1 (num - record.recordPointers.length) = 1 := by omega
        rw [if_pos hnum, hmax]
        simp
      · have hmax : max 1 (num - record.recordPointers.length)
            = max 1 (num - (record.recordPointers.length + 1)) + 1 := by
          omega
        rw [if_neg hnum, ih rfl, hlen, hmax, List.take_succ_cons, List.map_cons]
        simp

theorem length_chosen : (chosen P amb s record).length
    = min (max 1 (P.config.precedingRecordNum - record.recordPointers.length))
        (recordList P s).length := by
  rw [chosen, List.length_map, List.length_take, (amb.shuffle_perm _).length_eq]

/-- The names of the candidates are the keys of a map. -/
theorem recordList_nodup : ((recordList P s).map Prod.fst).Nodup := by
  have hsub : ((recordList P s).map Prod.fst).Sublist s.tailRecords.keys := by
    rw [recordList, List.map_map, ← Std.TreeMap.map_fst_toList_eq_keys]
    exact List.filter_sublist.map _
  exact Std.TreeMap.nodup_keys.sublist hsub

theorem chosen_nodup : (chosen P amb s record).Nodup := by
  have hshuffled : ((amb.shuffle (recordList P s)).map Prod.fst).Nodup :=
    ((amb.shuffle_perm _).map _).nodup_iff.2 recordList_nodup
  exact hshuffled.sublist ((List.take_sublist _ _).map _)

theorem mem_recordList_of_chosen {p : Name} (hp : p ∈ chosen P amb s record) :
    ∃ weight, (p, weight) ∈ recordList P s := by
  obtain ⟨⟨_, weight⟩, hmem, rfl⟩ := List.mem_map.1 hp
  exact ⟨weight, (amb.shuffle_perm _).mem_iff.1 (List.mem_of_mem_take hmem)⟩

/-! ## The exits -/

/-- The last step before the record gets its packet; it leaves the record as it is. -/
def signRecord (P : Peer σ) (amb : Ambient) (record : Record) :
    Except Fault (Except ReturnCode Data) :=
  let dataName := generateRecordName P.ndn P.config.peerPrefix record amb.now
  match record.wireEncode with
  | .error e => .error (.thrown e)
  | .ok content =>
      match amb.signData dataName content with
      | .error reason => .ok (.error (.signingError reason))
      | .ok signature => .ok (.ok ⟨dataName, content, signature⟩)

theorem signRecord_error (h : signRecord P amb record = .ok (.error code)) :
    ∃ reason, code = .signingError reason := by
  unfold signRecord at h
  cases hcontent : record.wireEncode with
  | error e => simp [hcontent] at h
  | ok content =>
      simp only [hcontent] at h
      cases hsign : amb.signData (generateRecordName P.ndn P.config.peerPrefix record amb.now)
          content with
      | error reason =>
          simp only [hsign] at h
          cases h
          exact ⟨reason, rfl⟩
      | ok signature => simp [hsign] at h

theorem signRecord_ok {data : Data} (h : signRecord P amb record = .ok (.ok data)) :
    data.name = generateRecordName P.ndn P.config.peerPrefix record amb.now ∧
      record.wireEncode = .ok data.content := by
  unfold signRecord at h
  cases hcontent : record.wireEncode with
  | error e => simp [hcontent] at h
  | ok content =>
      simp only [hcontent] at h
      cases hsign : amb.signData (generateRecordName P.ndn P.config.peerPrefix record amb.now)
          content with
      | error reason => simp [hsign] at h
      | ok signature =>
          simp only [hsign] at h
          cases h
          exact ⟨rfl, rfl⟩

variable (P amb s) in
theorem buildRecord_eq (hdata : record.data = none) :
    buildRecord P amb record s
      = if s.tailRecords.isEmpty then (record, .ok (.error .noTailingRecord))
        else if !P.certManager.authorizedToGenerate s.certManager then
          (record, .ok (.error (.signingError "No Valid Certificate")))
        else if (recordList P s).length < P.config.precedingRecordNum then
          (withCerts s record, .ok (.error .notEnoughTailingRecord))
        else
          (withPointers P amb s (withCerts s record),
            signRecord P amb (withPointers P amb s (withCerts s record))) := by
  have hcerts : (if record.type = .certificateRecord then
      addLastCertRecords s.lastCertRecords record else .ok record) = .ok (withCerts s record) := by
    by_cases htype : record.type = .certificateRecord
    · rw [if_pos htype, addLastCertRecords_eq _ hdata, withCerts, certItems, if_pos htype]
    · rw [if_neg htype, withCerts, certItems, if_neg htype, List.append_nil]
  -- a record without a packet can take items and pointers, so neither loop throws
  have hpointers : addPointers P.config.precedingRecordNum (amb.shuffle (recordList P s))
      (withCerts s record) = .ok (withPointers P amb s (withCerts s record)) :=
    addPointers_eq _ _ hdata
  unfold buildRecord
  simp only [hcerts, hpointers, signRecord]
  split_ifs
  · rfl
  · rfl
  · rfl
  · cases (withPointers P amb s (withCerts s record)).wireEncode with
    | error e => rfl
    | ok content =>
        dsimp only
        cases amb.signData (generateRecordName P.ndn P.config.peerPrefix
          (withPointers P amb s (withCerts s record)) amb.now) content <;> rfl

/-- An error of `buildRecord` is no success. -/
theorem buildRecord_error (hdata : record.data = none)
    (h : buildRecord P amb record s = (record', .ok (.error code))) : code.success = false := by
  rw [buildRecord_eq P amb s hdata] at h
  split_ifs at h
  · cases h
    rfl
  · cases h
    rfl
  · cases h
    rfl
  · obtain ⟨reason, rfl⟩ := signRecord_error (congrArg Prod.snd h)
    rfl

/-- What is signed has its pointers, of which there were enough. -/
theorem buildRecord_signed {data : Data} (hdata : record.data = none)
    (h : buildRecord P amb record s = (record', .ok (.ok data))) :
    P.config.precedingRecordNum ≤ (recordList P s).length ∧
      record' = withPointers P amb s (withCerts s record) ∧
        signRecord P amb record' = .ok (.ok data) := by
  rw [buildRecord_eq P amb s hdata] at h
  split_ifs at h with hempty hauth hnum
  · cases h
  · cases h
  · cases h
  · have hrecord := congrArg Prod.fst h
    have hsign := congrArg Prod.snd h
    dsimp only at hrecord hsign
    exact ⟨not_lt.1 hnum, hrecord.symm, hrecord ▸ hsign⟩

/-- An error before the packet is signed leaves the ledger as it is. -/
theorem createRecord_of_error (h : buildRecord P amb record s = (record', .ok (.error code))) :
    createRecord P amb record s = (s, record', .ok code) := by
  rw [createRecord, h]

/-- What a return code tells: the packet was not signed and the ledger is as it was, or the record
that was built has been added. -/
theorem createRecord_ok (h : createRecord P amb record s = (s', record', .ok code)) :
    (buildRecord P amb record s = (record', .ok (.error code)) ∧ s' = s) ∨
      ∃ built data s₁, buildRecord P amb record s = (built, .ok (.ok data)) ∧
        record' = { built with data := some data } ∧
        addToTailingRecord P amb record' true s = (s₁, .ok ()) ∧
        s' = (sendSyncInterest amb s₁).1 ∧
        (code.success = true → code = .noError (P.ndn.toUri (P.ndn.fullName data))) := by
  rw [createRecord] at h
  rcases hbuild : buildRecord P amb record s with ⟨built, f | code' | data⟩
  · rw [hbuild] at h
    cases h
  · rw [hbuild] at h
    cases h
    exact Or.inl ⟨rfl, rfl⟩
  rw [hbuild] at h
  dsimp only at h
  rcases hadd : addToTailingRecord P amb { built with data := some data } true s with
    ⟨s₁, f | ⟨⟨⟩⟩⟩
  · rw [hadd] at h
    cases h
  rw [hadd] at h
  dsimp only at h
  refine Or.inr ⟨built, data, s₁, rfl, ?_⟩
  -- an Interest that cannot be signed turns the result into an error, after the addition
  rcases hsync : sendSyncInterest amb s₁ with ⟨s₂, message | _ | _ | reason⟩
  · rw [hsync] at h
    cases h
    exact ⟨rfl, hadd, rfl, fun _ => rfl⟩
  all_goals
    rw [hsync] at h
    cases h
    refine ⟨rfl, hadd, rfl, ?_⟩
    intro hcode
    cases hcode

/-- A call that returns changes no record, or it adds one whose name is new to the tail. -/
theorem createRecord_cases (hrun : call P (.createRecord amb record) s = (s', .ok ())) :
    (∃ events, OnlySends P s s' events) ∨
      ∃ built data s₁ events, buildRecord P amb record s = (built, .ok (.ok data)) ∧
        s.tailRecords[P.ndn.fullName data]? = none ∧
        addToTailingRecord P amb { built with data := some data } true s = (s₁, .ok ()) ∧
        OnlySends P s₁ s' events := by
  rcases hcreate : createRecord P amb record s with ⟨s₂, record', f | code⟩
  · rw [call, hcreate] at hrun
    cases hrun
  rw [call, hcreate] at hrun
  cases hrun
  rcases createRecord_ok hcreate with ⟨_, rfl⟩ | ⟨built, data, s₁, hbuild, rfl, hadd, rfl, _⟩
  · exact Or.inl ⟨[], OnlySends.refl _⟩
  obtain ⟨events, hsends⟩ := sendSyncInterest_sends P amb s₁
  cases htail : s.tailRecords[P.ndn.fullName data]? with
  | none => exact Or.inr ⟨built, data, s₁, events, hbuild, htail, hadd, hsends⟩
  | some t =>
      -- the packet is a tailing record already
      rw [addToTailingRecord_of_tail rfl htail] at hadd
      cases hadd
      exact Or.inl ⟨events, hsends⟩

/-- A record whose packet is signed keeps it, whatever comes after. -/
theorem createRecord_of_built {data : Data}
    (h : buildRecord P amb record s = (record', .ok (.ok data))) :
    (createRecord P amb record s).2.1 = { record' with data := some data } := by
  rw [createRecord, h]
  dsimp only
  rcases addToTailingRecord P amb { record' with data := some data } true s with ⟨s₁, f | ⟨⟨⟩⟩⟩
  · rfl
  · dsimp only
    rcases sendSyncInterest amb s₁ with ⟨s₂, _ | _ | _ | _⟩ <;> rfl

/-- What a call returned, if it did. -/
theorem exists_success (out : LedgerImpl σ × Record × Except Fault ReturnCode)
    (h : out.2.2.toOption.map ReturnCode.success = some true) :
    ∃ code, out = (out.1, out.2.1, .ok code) ∧ code.success = true := by
  obtain ⟨s, record, f | code⟩ := out
  · cases h
  · exact ⟨code, rfl, Option.some.inj h⟩

end LedgerImpl

end DLedger
