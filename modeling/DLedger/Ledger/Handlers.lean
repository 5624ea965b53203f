import DLedger.Ledger.Tailing

set_option autoImplicit false

/-! # The calls of a ledger

The constructor, `createRecord` and the handlers of incoming packets, with the two checks of
a received record and the sync stack.
-/

namespace DLedger

open Tlv (Bytes Block)

inductive ReturnCode where
  | noError (message : Bytes)
  | noTailingRecord
  | notEnoughTailingRecord
  | signingError (reason : String)
deriving DecidableEq

def ReturnCode.success : ReturnCode → Bool
  | .noError _ => true
  | _ => false

namespace LedgerImpl

variable {σ : Type} (P : Peer σ) (amb : Ambient)

/-! ## The constructor and the sync Interest -/

/-- The tailing records that a sync Interest names. -/
def frontier (s : LedgerImpl σ) : List Name :=
  (s.tailRecords.toList.filter fun (_, state) =>
    state.parentEndorseVerified && state.refSet.card == 0).map Prod.fst

def sendSyncInterest (s : LedgerImpl σ) : LedgerImpl σ × ReturnCode :=
  match amb.signInterest with
  | .error reason => (s, .signingError reason)
  | .ok () => (s.emit (.syncInterest s.lastCertRecords (frontier s)), .noError [])

/-- The genesis record of a number, signed with a digest. -/
def genesisData (i : Nat) : Except Exn Record :=
  let record := genesisRecord (toString i)
  let name := generateRecordName P.ndn P.config.peerPrefix record 0
  record.wireEncode.map fun content =>
    { record with data := some ⟨name, content, P.ndn.sha256Signature name content⟩ }

def addGenesis (i : Nat) (s : LedgerImpl σ) : LedgerImpl σ × Except Fault Unit :=
  match genesisData P i with
  | .error e => (s, .error (.thrown e))
  | .ok record => addToTailingRecord P amb record true s

/-- The ledger before its first record. -/
def blank (backend : Backend) (certManager : σ) : LedgerImpl σ where
  backend := backend
  tailRecords := ∅
  syncStack := []
  lastCertRecords := []
  certManager := certManager
  log := []

/-- The constructor, on a database and with a certificate manager. -/
def construct (backend : Backend) (certManager : σ) : LedgerImpl σ × Except Fault Unit :=
  let s := blank backend certManager
  if P.config.contributionWeight < P.config.appendWeight then
    (s, .error (.thrown (.runtimeError "invalid weight configuration")))
  else
    match Outcome.forEach (addGenesis P amb) (List.range P.config.numGenesisBlock) s with
    | (s, .error f) => (s, .error f)
    | (s, .ok ()) => ((sendSyncInterest amb s).1, .ok ())

/-! ## Creating a record -/

/-- The tailing records that a new record may point to. -/
def recordList (s : LedgerImpl σ) : List (Name × Nat) :=
  (s.tailRecords.toList.filter fun (name, state) =>
    state.refSet.card ≤ P.config.appendWeight && !P.config.peerPrefix.isPrefixOf name
      && state.parentEndorseVerified).map fun (name, state) => (name, state.refSet.card)

/-- `addRecordItem(KeyLocator(certName).wireEncode())` for each last certificate record. -/
def addLastCertRecords : List Name → Record → Except Exn Record
  | [], record => .ok record
  | certName :: certNames, record => do
      let record ← record.addRecordItem (KeyLocator.wireEncode certName)
      addLastCertRecords certNames record

/-- The pointer loop: it stops when the record has `precedingRecordNum` pointers, a test made
after a pointer is added. -/
def addPointers (precedingRecordNum : Nat) : List (Name × Nat) → Record → Except Exn Record
  | [], record => .ok record
  | tailRecord :: tailRecords, record => do
      let record ← record.addPointer tailRecord.1
      if precedingRecordNum ≤ record.recordPointers.length then return record
      else addPointers precedingRecordNum tailRecords record

/-- `createRecord` up to the signature. The caller's record keeps what was added to it. -/
def buildRecord (record : Record) (s : LedgerImpl σ) :
    Record × Except Fault (Except ReturnCode Data) :=
  if s.tailRecords.isEmpty then (record, .ok (.error .noTailingRecord))
  else if !P.certManager.authorizedToGenerate s.certManager then
    (record, .ok (.error (.signingError "No Valid Certificate")))
  else
    let withCerts := if record.type = .certificateRecord then
        addLastCertRecords s.lastCertRecords record
      else .ok record
    match withCerts with
    | .error e => (record, .error (.thrown e))
    | .ok record =>
        let candidates := recordList P s
        if candidates.length < P.config.precedingRecordNum then
          (record, .ok (.error .notEnoughTailingRecord))
        else
          match addPointers P.config.precedingRecordNum (amb.shuffle candidates) record with
          | .error e => (record, .error (.thrown e))
          | .ok record =>
              let dataName := generateRecordName P.ndn P.config.peerPrefix record amb.now
              match record.wireEncode with
              | .error e => (record, .error (.thrown e))
              | .ok content =>
                  match amb.signData dataName content with
                  | .error reason => (record, .ok (.error (.signingError reason)))
                  | .ok signature => (record, .ok (.ok ⟨dataName, content, signature⟩))

def createRecord (record : Record) (s : LedgerImpl σ) :
    LedgerImpl σ × Record × Except Fault ReturnCode :=
  match buildRecord P amb record s with
  | (record, .error f) => (s, record, .error f)
  | (record, .ok (.error code)) => (s, record, .ok code)
  | (record, .ok (.ok data)) =>
      let record := { record with data := some data }
      match addToTailingRecord P amb record true s with
      | (s, .error f) => (s, record, .error f)
      | (s, .ok ()) =>
          match sendSyncInterest amb s with
          | (s, .noError _) => (s, record, .ok (.noError (P.ndn.toUri (P.ndn.fullName data))))
          | (s, code) => (s, record, .ok code)

/-! ## The checks of a record -/

/-- The interlock policy: no pointer has the producer of the record. -/
def checkInterlock (producerID : Name) : List Name → Except Exn Bool
  | [] => .ok true
  | precedingRecordName :: names => do
      let preceding ← RecordName.ofName precedingRecordName
      if RecordName.getProducerPrefix preceding.name = producerID then return false
      else checkInterlock producerID names

/-- Step 1 of the syntax check. -/
def parseRecord (data : Data) : Except Exn Record := do
  let dataRecord ← Record.ofData P.ndn data
  dataRecord.checkPointerCount P.config.precedingRecordNum
  return dataRecord

/-- Steps 2 to 5, on the record. -/
def checkSyntaxOfRecord (dataRecord : Record) (data : Data) (s : LedgerImpl σ) :
    Except Fault Bool := do
  let producerID ← dataRecord.getProducerPrefix
  let signed ← (P.certManager.verifySignature s.certManager data).mapError .thrown
  if !signed then return false
  let tp ← dataRecord.getGenerationTimestamp
  if amb.now + P.config.clockSkewTolerance < tp then return false
  let interlocked ← (checkInterlock producerID dataRecord.recordPointers).mapError .thrown
  if !interlocked then return false
  if dataRecord.type = .certificateRecord ∨ dataRecord.type = .revocationRecord then
    (P.certManager.verifyRecordFormat s.certManager dataRecord).mapError .thrown
  else return true

def checkSyntaxValidityOfRecord (data : Data) (s : LedgerImpl σ) : Except Fault Bool :=
  match parseRecord P data with
  | .error _ => .ok false
  | .ok dataRecord => do
      let good ← checkSyntaxOfRecord P amb dataRecord data s
      match amb.onRecordAppRetrievalCheck with
      | some check => return good && check data
      | none => return good

/-- The contribution policy: every pointer is a tailing record and is not too heavy. -/
def contributionAllowed (pointers : List Name) (s : LedgerImpl σ) : Bool :=
  pointers.all fun precedingRecordName =>
    match s.tailRecords[precedingRecordName]? with
    | some state => state.refSet.card ≤ P.config.contributionWeight
    | none => false

def checkEndorseValidityOfRecord (data : Data) (s : LedgerImpl σ) : Except Fault Bool :=
  match Record.ofData P.ndn data with
  | .error _ => .ok false
  | .ok dataRecord => do
      let endorsed ← (P.certManager.endorseSignature s.certManager data).mapError .thrown
      if endorsed && contributionAllowed P dataRecord.recordPointers s then
        match amb.onRecordAppEndorseCheck with
        | some check => return check data
        | none => return true
      else return false

/-! ## The sync stack -/

def fetchRecord (recordName : Name) (s : LedgerImpl σ) : LedgerImpl σ :=
  s.emit (.fetch recordName)

/-- Whether all of the names are seen; an Interest is expressed for each that is not. -/
def fetchUnseen : List Name → LedgerImpl σ → LedgerImpl σ × Bool
  | [], s => (s, true)
  | name :: names, s =>
      if s.seenRecord P name then fetchUnseen names s
      else ((fetchUnseen names (fetchRecord name s)).1, false)

/-- The `try` block of `onFetchedRecord`; the flag tells whether the sync stack is to be
scanned, which it is not when an ancestor is missing or an exception was caught. -/
def receiveRecord (data : Data) (s : LedgerImpl σ) : LedgerImpl σ × Except Fault Bool :=
  match Record.ofData P.ndn data with
  | .error _ => (s, .ok false)
  | .ok record =>
      if record.type = .genesisRecord then (s, .ok false)
      else
        match checkSyntaxValidityOfRecord P amb data s with
        | .error (.thrown _) => (s, .ok false)
        | .error .nullDereference => (s, .error .nullDereference)
        | .ok false => (s, .ok false)
        | .ok true =>
            let s := { s with syncStack := s.syncStack ++ [(record, amb.now)] }
            let (s, allPointers) := fetchUnseen P record.recordPointers s
            if record.type = .certificateRecord then
              match CertificateRecord.ofRecord P.ndn record with
              | .error _ => (s, .ok false)
              | .ok certRecord =>
                  let (s, allCerts) := fetchUnseen P (certRecord.prevCert.filter (· ≠ [])) s
                  (s, .ok (allPointers && allCerts))
            else (s, .ok allPointers)

/-- Whether the record waits for nothing: its pointers are in the ledger as verified records
and, for a certificate record, its previous certificate records are seen. -/
def readyToAdd (record : Record) (s : LedgerImpl σ) : Except Fault Bool :=
  let pointersReady := record.recordPointers.all fun p => s.hasRecord P (P.ndn.toUri p)
  if record.type = .certificateRecord then
    match CertificateRecord.ofRecord P.ndn record with
    | .error e => .error (.thrown e)
    | .ok certRecord => .ok (pointersReady &&
        certRecord.prevCert.all fun prevCertName => prevCertName == [] ||
          s.seenRecord P prevCertName)
  else .ok pointersReady

def checkRecordAncestor (record : Record) (s : LedgerImpl σ) :
    LedgerImpl σ × Except Fault Bool :=
  match readyToAdd P record s with
  | .error f => (s, .error f)
  | .ok false => (s, .ok false)
  | .ok true =>
      match record.data with
      | none => (s, .error .nullDereference)
      | some data =>
          match checkEndorseValidityOfRecord P amb data s with
          | .error f => (s, .error f)
          | .ok endorseVerified =>
              match addToTailingRecord P amb record endorseVerified s with
              | (s, .error f) => (s, .error f)
              | (s, .ok ()) => (s, .ok true)

/-- One pass over the sync stack, from the entry behind `before` on: an entry that is
resolved or that has waited too long is erased. -/
def scanStack : List (Record × Int) → List (Record × Int) → LedgerImpl σ →
    LedgerImpl σ × Except Fault Unit
  | _, [], s => (s, .ok ())
  | before, it :: rest, s =>
      match checkRecordAncestor P amb it.1 s with
      | (s, .error f) => (s, .error f)
      | (s, .ok true) => scanStack before rest { s with syncStack := before ++ rest }
      | (s, .ok false) =>
          if P.config.ancestorFetchTimeout < |amb.now - it.2| then
            scanStack before rest { s with syncStack := before ++ rest }
          else scanStack (before ++ [it]) rest s

/-- The loop `while (stackSize != m_syncStack.size())`. `stackSize` is the size before the
last pass; `none` stands for its initial value `INT_MAX`, which no list reaches. -/
def rescanStack : Nat → Option Nat → LedgerImpl σ → LedgerImpl σ × Except Fault Unit
  | 0, _, s => (s, .ok ())
  | fuel + 1, stackSize, s =>
      if stackSize = some s.syncStack.length then (s, .ok ())
      else
        match scanStack P amb [] s.syncStack s with
        | (s', .error f) => (s', .error f)
        | (s', .ok ()) => rescanStack fuel (some s.syncStack.length) s'

def onFetchedRecord (data : Data) (s : LedgerImpl σ) : LedgerImpl σ × Except Fault Unit :=
  let fullName := P.ndn.fullName data
  if s.seenRecord P fullName then (s, .ok ())
  else if s.syncStack.any (fun stackRecord => stackRecord.1.getRecordName P.ndn == fullName) then
    (s, .ok ())
  else
    match receiveRecord P amb data s with
    | (s, .error f) => (s, .error f)
    | (s, .ok false) => (s, .ok ())
    | (s, .ok true) => rescanStack P amb (s.syncStack.length + 2) none s

/-! ## The other handlers -/

/-- What the loop over the application parameters carries: `shouldSendSync` and
`isCertPending`. -/
structure SyncFlags where
  shouldSendSync : Bool := false
  isCertPending : Bool := false

/-- A key locator in a sync Interest; every exception is caught. -/
def onSyncCertificate (item : Block) (st : LedgerImpl σ × SyncFlags) :
    LedgerImpl σ × SyncFlags :=
  match KeyLocator.getName item with
  | none => st
  | some name =>
      match RecordName.ofName name with
      | .error _ => st
      | .ok certName =>
          if RecordName.getRecordType certName.name = .certificateRecord
              && !st.1.seenRecord P certName.name then
            (fetchRecord certName.name st.1, { st.2 with isCertPending := true })
          else st

/-- The body of the loop over the application parameters of a sync Interest. -/
def onSyncItem (item : Block) (st : LedgerImpl σ × SyncFlags) :
    (LedgerImpl σ × SyncFlags) × Except Fault Unit :=
  if item.type = KeyLocator.keyLocatorType then (onSyncCertificate P item st, .ok ())
  else if st.2.isCertPending then (st, .ok ())
  else
    match Name.wireDecode item with
    | none => (st, .error (.thrown .ndnError))
    | some recordName =>
        if (st.1.tailRecords[recordName]?).any (fun state => state.refSet.card == 0) then
          (st, .ok ())
        else if st.1.seenRecord P recordName then
          ((st.1, { st.2 with shouldSendSync := true }), .ok ())
        else ((fetchRecord recordName st.1, st.2), .ok ())

def onLedgerSyncRequest (interest : Interest) (s : LedgerImpl σ) :
    LedgerImpl σ × Except Fault Unit :=
  match P.certManager.verifyInterest s.certManager interest with
  | .error e => (s, .error (.thrown e))
  | .ok false => (s, .ok ())
  | .ok true =>
      let s := s.emit .replyCancelled
      match Tlv.parse interest.applicationParameters with
      | none => (s, .error (.thrown .ndnError))
      | some elements =>
          match Outcome.forEach (onSyncItem P) elements (s, {}) with
          | (st, .error f) => (st.1, .error f)
          | (st, .ok ()) =>
              (if st.2.shouldSendSync then st.1.emit .replyScheduled else st.1, .ok ())

def onRecordRequest (interest : Interest) (s : LedgerImpl σ) :
    LedgerImpl σ × Except Fault Unit :=
  match s.getRecord P interest.name with
  | .error e => (s, .error (.thrown e))
  | .ok none => (s, .ok ())
  | .ok (some desiredData) =>
      match desiredData.data with
      | none => (s, .error .nullDereference)
      | some data => (s.emit (.replied data), .ok ())

end LedgerImpl

end DLedger
