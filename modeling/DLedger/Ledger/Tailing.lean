import DLedger.Ledger.State
import DLedger.Lib.Outcome

set_option autoImplicit false

/-! # Adding a record to the tail

`addToTailingRecord` inserts a record, walks down its pointers and adds its producer to the
reference sets it reaches, confirms and removes the records whose weight has crossed a
threshold, and evicts the records that have waited too long for their confirmation.

The loops of the source have a fuel argument here, one more than the number of tailing
records. `Ledger/Walk.lean` and `Ledger/Evict.lean` show that it is never used up.
-/

namespace DLedger

open Tlv (Bytes Block)

namespace LedgerImpl

variable {σ : Type} (P : Peer σ) (amb : Ambient)

/-! ## The weight walk -/

structure WalkState (σ : Type) where
  ledger : LedgerImpl σ
  stack : List Name
  updatedRecords : Std.TreeSet Name

/-- The body of the loop over `precedingRecordList`. -/
def visitPointer (record : Record) (precedingRecord : Name) (w : WalkState σ) :
    WalkState σ × Except Fault Unit :=
  match RecordName.ofName precedingRecord, record.getProducerPrefix with
  | .error e, _ => (w, .error (.thrown e))
  | .ok _, .error f => (w, .error f)
  | .ok preceding, .ok producer =>
      if RecordName.getProducerPrefix preceding.name = producer then (w, .ok ())
      else
        match w.ledger.tailRecords[precedingRecord]? with
        | none => (w, .ok ())
        | some state =>
            if producer ∈ state.refSet then (w, .ok ())
            else
              ({ ledger := w.ledger.setTail precedingRecord
                  { state with refSet := insert producer state.refSet }
                 stack := precedingRecord :: w.stack
                 updatedRecords := w.updatedRecords.insert precedingRecord }, .ok ())

/-- The loop `while (!stack.empty())`. -/
def weightWalk (record : Record) : Nat → WalkState σ → WalkState σ × Except Fault Unit
  | 0, w => (w, .ok ())
  | fuel + 1, w =>
      match w.stack with
      | [] => (w, .ok ())
      | top :: stack =>
          let w := { w with stack }
          match RecordName.ofName top with
          | .error e => (w, .error (.thrown e))
          | .ok currentRecordName =>
              if RecordName.getRecordType currentRecordName.name = .genesisRecord then
                weightWalk record fuel w
              else
                match w.ledger.getRecord P top with
                | .error e => (w, .error (.thrown e))
                | .ok none => (w, .error .nullDereference)
                | .ok (some currentRecord) =>
                    match Outcome.forEach (visitPointer record)
                        currentRecord.recordPointers w with
                    | (w, .error f) => (w, .error f)
                    | (w, .ok ()) => weightWalk record fuel w

/-! ## Confirmation and removal -/

def onRecordConfirmed (record : Record) (s : LedgerImpl σ) :
    LedgerImpl σ × Except Fault Unit :=
  match record.data with
  | none => (s, .error .nullDereference)
  | some data =>
      let s := s.emit (.confirmed record)
      let putOk := amb.putOk (P.ndn.fullName data)
      let s := { s with backend := (s.backend.putRecord P.ndn putOk data).1 }
      let accept (s : LedgerImpl σ) : LedgerImpl σ :=
        { s with certManager := P.certManager.acceptRecord s.certManager record }
      match record.type with
      | .certificateRecord =>
          match CertificateRecord.ofRecord P.ndn record with
          | .error _ => (s, .ok ())
          | .ok certRecord =>
              let pushed := s.lastCertRecords ++ [record.getRecordName P.ndn]
              let s := { s with lastCertRecords := pushed.filter (· ∉ certRecord.prevCert) }
              ((accept s).emit (.appConfirmed record), .ok ())
      | .revocationRecord => ((accept s).emit (.appConfirmed record), .ok ())
      | _ => (s.emit (.appConfirmed record), .ok ())

/-- The first `if` of the loop over `updatedRecords`. The flag is `referenceNeedUpdate`. -/
def confirmUpdated (updatedRecord : Name) (state : TailingRecordState)
    (st : LedgerImpl σ × Bool) : (LedgerImpl σ × Bool) × Except Fault Unit :=
  if state.refSet.card = P.config.confirmWeight then
    let referenceNeedUpdate := st.2 || !state.parentEndorseVerified
    let s := st.1.setTail updatedRecord { state with parentEndorseVerified := true }
    match s.getRecord P updatedRecord with
    | .error e => ((s, referenceNeedUpdate), .error (.thrown e))
    | .ok none => ((s, referenceNeedUpdate), .error .nullDereference)
    | .ok (some record) =>
        let (s, result) := onRecordConfirmed P amb record s
        ((s, referenceNeedUpdate), result)
  else (st, .ok ())

/-- The second `if`: a record whose weight is at least `removeWeight` leaves the tail. -/
def removeUpdated (updatedRecord : Name) (state : TailingRecordState) (s : LedgerImpl σ) :
    LedgerImpl σ :=
  if P.removesDeep && P.config.removeWeight ≤ state.refSet.card then s.eraseTail updatedRecord
  else s

/-- The body of the loop over `updatedRecords`; `m_tailRecords[updatedRecord]` makes an entry
where there is none. -/
def processUpdated (updatedRecord : Name) (st : LedgerImpl σ × Bool) :
    (LedgerImpl σ × Bool) × Except Fault Unit :=
  let s := { st.1 with tailRecords := st.1.tailRecords.insertIfNew updatedRecord {} }
  let state := s.tailRecords.getD updatedRecord {}
  match confirmUpdated P amb updatedRecord state (s, st.2) with
  | (st, .error f) => (st, .error f)
  | (st, .ok ()) => ((removeUpdated P updatedRecord state st.1, st.2), .ok ())

/-! ## The reference policy -/

/-- The body of the loop over `m_tailRecords`, for the entry of a name. -/
def updateReference (name : Name) (st : LedgerImpl σ × Bool) :
    (LedgerImpl σ × Bool) × Except Fault Unit :=
  match st.1.tailRecords[name]? with
  | none => (st, .ok ())
  | some r =>
      if !r.parentEndorseVerified && r.recordEndorseVerified then
        match st.1.getRecord P name with
        | .error e => (st, .error (.thrown e))
        | .ok none => (st, .error .nullDereference)
        | .ok (some currentRecord) =>
            let referenceVerified := currentRecord.recordPointers.all fun precedingRecord =>
              match st.1.tailRecords[precedingRecord]? with
              | none => true
              | some p => !(p.refSet.card < P.config.confirmWeight && !p.parentEndorseVerified)
            if referenceVerified then
              ((st.1.setTail name { r with parentEndorseVerified := true }, true), .ok ())
            else (st, .ok ())
      else (st, .ok ())

/-- The loop `while (referenceNeedUpdate)`. -/
def updateReferences : Nat → LedgerImpl σ × Bool → LedgerImpl σ × Except Fault Unit
  | 0, st => (st.1, .ok ())
  | fuel + 1, st =>
      if st.2 then
        match Outcome.forEach (updateReference P) st.1.tailRecords.keys (st.1, false) with
        | (st, .error f) => (st.1, .error f)
        | (st, .ok ()) => updateReferences fuel st
      else (st.1, .ok ())

/-! ## Eviction -/

/-- The records with a pointer into a list. -/
def childrenOf (timeoutList : List Name) (tail : TailMap) : List Name :=
  (tail.toList.filter fun (_, state) =>
    state.record.recordPointers.any (timeoutList.contains ·)).map Prod.fst

/-- The loop `while (!timeoutList.empty())`: erase the list, go on with the children. -/
def removeGenerations : Nat → List Name → TailMap → TailMap
  | 0, _, tail => tail
  | fuel + 1, timeoutList, tail =>
      if timeoutList.isEmpty then tail
      else
        let tail := timeoutList.foldl (fun tail i => tail.erase i) tail
        removeGenerations fuel (childrenOf timeoutList tail) tail

/-- The first list: the unconfirmed records that were added before a time. -/
def timedOut (config : Config) (timeBefore : Int) (tail : TailMap) : List Name :=
  (tail.toList.filter fun (_, state) =>
    state.refSet.card < config.confirmWeight && state.addedTime < timeBefore).map Prod.fst

def removeTimeoutRecords (s : LedgerImpl σ) : LedgerImpl σ :=
  let timeBefore := amb.now - P.config.blockConfirmationTimeout
  let timeoutList := timedOut P.config timeBefore s.tailRecords
  { s with tailRecords :=
      removeGenerations (s.tailRecords.size + 1) timeoutList s.tailRecords }

/-! ## The whole function -/

/-- Whether no pointer of the record is a tailing record with `parentEndorseVerified` unset. -/
def pointersVerified (record : Record) (s : LedgerImpl σ) : Bool :=
  record.recordPointers.all fun precedingRecord =>
    match s.tailRecords[precedingRecord]? with
    | none => true
    | some state => state.parentEndorseVerified

/-- The new entry. -/
def insertRecord (record : Record) (endorseVerified : Bool) (s : LedgerImpl σ) :
    LedgerImpl σ :=
  let refVerified := endorseVerified && pointersVerified record s
  (s.emit (.inserted record endorseVerified)).setTail (record.getRecordName P.ndn)
    { parentEndorseVerified := refVerified
      refSet := ∅
      recordEndorseVerified := endorseVerified
      record := record
      addedTime := amb.now }

/-- Where the walk starts: only a record that is valid for all policies counts. -/
def walkStart (record : Record) (endorseVerified : Bool) (s : LedgerImpl σ) : WalkState σ where
  ledger := s
  stack := if endorseVerified then [record.getRecordName P.ndn] else []
  updatedRecords := ∅

def addToTailingRecord (record : Record) (endorseVerified : Bool) (s : LedgerImpl σ) :
    LedgerImpl σ × Except Fault Unit :=
  if s.tailRecords.contains (record.getRecordName P.ndn) then (s, .ok ())
  else
    let s := insertRecord P amb record endorseVerified s
    match weightWalk P record (s.tailRecords.size + 1) (walkStart P record endorseVerified s) with
    | (w, .error f) => (w.ledger, .error f)
    | (w, .ok ()) =>
        match Outcome.forEach (processUpdated P amb) w.updatedRecords.toList
            (w.ledger, false) with
        | (st, .error f) => (st.1, .error f)
        | (st, .ok ()) =>
            match updateReferences P (st.1.tailRecords.size + 1) st with
            | (s, .error f) => (s, .error f)
            | (s, .ok ()) => (removeTimeoutRecords P amb s, .ok ())

end LedgerImpl

end DLedger
