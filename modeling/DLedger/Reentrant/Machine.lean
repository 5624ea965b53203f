import DLedger.Ledger.Run

set_option autoImplicit false

/-! # Callbacks that append

`onRecordConfirmed` invokes `m_onRecordAppConfirmed` in the middle of the loop of
`addToTailingRecord` over `updatedRecords`. A callback that calls `createRecord` starts another
such loop inside the first one. So a ledger is a machine here: it keeps the loops that are under
way, the innermost first, and the loop over the sync stack that may be around them, and it goes from
one point of these loops to the next. Between two points the application may make a call where the
source lets it: when nothing is under way, or, for `createRecord`, while a callback runs.
-/

namespace DLedger

open Tlv (Bytes Block)

/-- The record a loop is at. -/
structure Visit where
  updatedRecord : Name
  /-- `m_onRecordAppConfirmed` runs for it. -/
  callback : Bool
  /-- The reference `tailingState` is valid: the entry has not been erased since it was bound. -/
  valid : Bool

/-- A call of `addToTailingRecord` in its loop over `updatedRecords`. -/
structure Loop where
  amb : Ambient
  /-- The records whose turn is to come. -/
  updatedRecords : List Name
  visit : Option Visit
  referenceNeedUpdate : Bool
  /-- `createRecord` has made the call and sends a sync Interest after it. -/
  creates : Bool

/-- A call of `onFetchedRecord` in its loop over the sync stack: the entries that stay, and the
entries whose turn is to come. -/
structure Scan where
  amb : Ambient
  before : List (Record × Int)
  rest : List (Record × Int)
  stackSize : Nat

structure Machine (σ : Type) where
  ledger : LedgerImpl σ
  loops : List Loop
  scan : Option Scan

/-- What ends a run. -/
inductive Crash where
  | fault (f : Fault)
  /-- `tailingState` is read after its entry has been erased. -/
  | danglingReference

/-- A call, or going on to the next point. -/
inductive Action where
  | call (c : LedgerImpl.Call)
  | resume

/-- After an erase, only the references to entries that are still there are valid. -/
def Loop.revalidate (tail : TailMap) (l : Loop) : Loop :=
  { l with visit := l.visit.map fun v =>
      { v with valid := v.valid && tail.contains v.updatedRecord } }

namespace LedgerImpl

variable {σ : Type} (P : Peer σ) (amb : Ambient)

/-! ## The parts of `addToTailingRecord` -/

/-- `addToTailingRecord` up to the loop; `none` where it returns at once. -/
def enterTailing (record : Record) (endorseVerified : Bool) (s : LedgerImpl σ) :
    LedgerImpl σ × Except Fault (Option (List Name)) :=
  if s.tailRecords.contains (record.getRecordName P.ndn) then (s, .ok none)
  else
    let s := insertRecord P amb record endorseVerified s
    match weightWalk P record (s.tailRecords.size + 1) (walkStart P record endorseVerified s) with
    | (w, .error f) => (w.ledger, .error f)
    | (w, .ok ()) => (w.ledger, .ok (some w.updatedRecords.toList))

/-- A confirmed record is passed to `m_onRecordAppConfirmed`, unless it is a certificate record
that cannot be read. -/
def invokesCallback (ndn : Ndn) (record : Record) : Bool :=
  match record.type with
  | .certificateRecord =>
      match CertificateRecord.ofRecord ndn record with
      | .error _ => false
      | .ok _ => true
  | _ => true

/-- The body of the loop up to its second `if`. The result tells whether the callback runs. -/
def visitUpdated (updatedRecord : Name) (st : LedgerImpl σ × Bool) :
    (LedgerImpl σ × Bool) × Except Fault Bool :=
  let s := { st.1 with tailRecords := st.1.tailRecords.insertIfNew updatedRecord {} }
  let state := s.tailRecords.getD updatedRecord {}
  match confirmUpdated P amb updatedRecord state (s, st.2) with
  | (st, .error f) => (st, .error f)
  | (st, .ok ()) =>
      (st, .ok (state.refSet.card = P.config.confirmWeight && invokesCallback P.ndn state.record))

/-- `addToTailingRecord` behind the loop. -/
def leaveTailing (referenceNeedUpdate : Bool) (s : LedgerImpl σ) :
    LedgerImpl σ × Except Fault Unit :=
  match updateReferences P (s.tailRecords.size + 1) (s, referenceNeedUpdate) with
  | (s, .error f) => (s, .error f)
  | (s, .ok ()) => (removeTimeoutRecords P amb s, .ok ())

end LedgerImpl

namespace Machine

open LedgerImpl

variable {σ : Type} (P : Peer σ)

/-- Nothing is under way. -/
def idle (m : Machine σ) : Bool := m.loops.isEmpty && m.scan.isNone

/-- The innermost callback runs. -/
def inCallback (m : Machine σ) : Bool :=
  m.loops.head?.any fun l => l.visit.any Visit.callback

/-- The records that the loops are at. -/
def current (m : Machine σ) : List Name :=
  m.loops.flatMap fun l => (l.visit.map Visit.updatedRecord).toList

/-- The records whose turn is to come in some loop. -/
def pending (m : Machine σ) : List Name := m.loops.flatMap Loop.updatedRecords

/-- What waits in the sync stack, without the entry that is being added. -/
def waiting (m : Machine σ) : List (Record × Int) :=
  match m.loops, m.scan with
  | _ :: _, some q => q.before ++ q.rest.tail
  | _, _ => m.ledger.syncStack

/-! ## Calls -/

/-- Go into the loop of a call of `addToTailingRecord`. -/
def push (m : Machine σ) (amb : Ambient) (creates : Bool) (s : LedgerImpl σ)
    (updatedRecords : List Name) : Machine σ :=
  { m with
    ledger := s
    loops := { amb, updatedRecords, visit := none, referenceNeedUpdate := false, creates }
      :: m.loops }

/-- `createRecord` up to the loop of `addToTailingRecord`. -/
def create (amb : Ambient) (record : Record) (m : Machine σ) : Except Crash (Machine σ) :=
  match buildRecord P amb record m.ledger with
  | (_, .error f) => .error (.fault f)
  | (_, .ok (.error _)) => .ok m
  | (record, .ok (.ok data)) =>
      match enterTailing P amb { record with data := some data } true m.ledger with
      | (_, .error f) => .error (.fault f)
      | (s, .ok none) => .ok { m with ledger := (sendSyncInterest amb s).1 }
      | (s, .ok (some updatedRecords)) => .ok (m.push amb true s updatedRecords)

/-- `onFetchedRecord` up to the loop over the sync stack. -/
def receive (amb : Ambient) (data : Data) (m : Machine σ) : Except Crash (Machine σ) :=
  let s := m.ledger
  let fullName := P.ndn.fullName data
  if s.seenRecord P fullName then .ok m
  else if s.syncStack.any (fun stackRecord => stackRecord.1.getRecordName P.ndn == fullName) then
    .ok m
  else
    match receiveRecord P amb data s with
    | (_, .error f) => .error (.fault f)
    | (s, .ok false) => .ok { m with ledger := s }
    | (s, .ok true) =>
        .ok { m with ledger := s, scan := some ⟨amb, [], s.syncStack, s.syncStack.length⟩ }

/-- A call, where it can be made; elsewhere nothing happens. -/
def invoke (c : Call) (m : Machine σ) : Except Crash (Machine σ) :=
  match c with
  | .createRecord amb record =>
      if m.idle || m.inCallback then m.create P amb record else .ok m
  | .onFetchedRecord amb data => if m.idle then m.receive P amb data else .ok m
  | c =>
      if m.idle then
        match LedgerImpl.call P c m.ledger with
        | (_, .error f) => .error (.fault f)
        | (s, .ok ()) => .ok { m with ledger := s }
      else .ok m

/-! ## Going on -/

/-- The entry of the sync stack whose check is over is erased, if no other loop is around. -/
def erased (m : Machine σ) : Machine σ :=
  match m.loops, m.scan with
  | [], some q =>
      { m with
        ledger := m.ledger.withStack (q.before ++ q.rest.tail)
        scan := some { q with rest := q.rest.tail } }
  | _, _ => m

/-- The second `if` of the loop, when the callback has returned. -/
def leaveVisit (l : Loop) (below : List Loop) (v : Visit) (m : Machine σ) :
    Except Crash (Machine σ) :=
  if v.valid then
    let s := removeUpdated P v.updatedRecord (m.ledger.tailRecords.getD v.updatedRecord {}) m.ledger
    .ok { m with
      ledger := s
      loops := { l with visit := none } :: below.map (Loop.revalidate s.tailRecords) }
  else .error .danglingReference

/-- The next record of the loop. -/
def enterVisit (l : Loop) (below : List Loop) (updatedRecord : Name) (rest : List Name)
    (m : Machine σ) : Except Crash (Machine σ) :=
  match visitUpdated P l.amb updatedRecord (m.ledger, l.referenceNeedUpdate) with
  | (_, .error f) => .error (.fault f)
  | ((s, referenceNeedUpdate), .ok callback) =>
      .ok { m with
        ledger := s
        loops := { l with
          updatedRecords := rest
          visit := some ⟨updatedRecord, callback, true⟩
          referenceNeedUpdate } :: below }

/-- The end of the loop. -/
def pop (l : Loop) (below : List Loop) (m : Machine σ) : Except Crash (Machine σ) :=
  match leaveTailing P l.amb l.referenceNeedUpdate m.ledger with
  | (_, .error f) => .error (.fault f)
  | (s, .ok ()) =>
      .ok ({ m with
        ledger := if l.creates then (sendSyncInterest l.amb s).1 else s
        loops := below.map (Loop.revalidate s.tailRecords) } : Machine σ).erased

/-- The next entry of the sync stack, or the end of a pass. -/
def scanNext (q : Scan) (m : Machine σ) : Except Crash (Machine σ) :=
  let s := m.ledger
  match q.rest with
  | [] =>
      if q.stackSize = s.syncStack.length then .ok { m with scan := none }
      else .ok { m with scan := some ⟨q.amb, [], s.syncStack, s.syncStack.length⟩ }
  | it :: rest =>
      match readyToAdd P it.1 s with
      | .error f => .error (.fault f)
      | .ok false =>
          if P.config.ancestorFetchTimeout < |q.amb.now - it.2| then
            .ok { m with
              ledger := s.withStack (q.before ++ rest), scan := some { q with rest } }
          else .ok { m with scan := some { q with before := q.before ++ [it], rest } }
      | .ok true =>
          match it.1.data with
          | none => .error (.fault .nullDereference)
          | some data =>
              match checkEndorseValidityOfRecord P q.amb data s with
              | .error f => .error (.fault f)
              | .ok endorseVerified =>
                  match enterTailing P q.amb it.1 endorseVerified s with
                  | (_, .error f) => .error (.fault f)
                  | (s, .ok none) => .ok ({ m with ledger := s } : Machine σ).erased
                  | (s, .ok (some updatedRecords)) =>
                      .ok (m.push q.amb false s updatedRecords)

def resume (m : Machine σ) : Except Crash (Machine σ) :=
  match m.loops with
  | l :: below =>
      match l.visit, l.updatedRecords with
      | some v, _ => m.leaveVisit P l below v
      | none, updatedRecord :: rest => m.enterVisit P l below updatedRecord rest
      | none, [] => m.pop P l below
  | [] =>
      match m.scan with
      | some q => m.scanNext P q
      | none => .ok m

def advance : Action → Machine σ → Except Crash (Machine σ)
  | .call c, m => m.invoke P c
  | .resume, m => m.resume P

/-! ## Runs -/

/-- The calls of the runs: writes succeed, and a record to create is fresh, with a new packet. -/
def Admits (P : Peer σ) (m : Machine σ) : Action → Prop
  | .call c => Admissible P m.ledger c
  | .resume => True

/-- The points that a ledger reaches which starts on a database. -/
inductive Reaches (P : Peer σ) (db : Backend) (certManager : σ)
    (allowed : Machine σ → Action → Prop) : Machine σ → Prop where
  | start {amb : Ambient} {s : LedgerImpl σ} (writes : Ambient.Writes amb)
      (h : construct P amb db certManager = (s, .ok ())) :
      Reaches P db certManager allowed ⟨s, [], none⟩
  | advance {m m' : Machine σ} {a : Action} (h : Reaches P db certManager allowed m)
      (admits : Admits P m a) (ha : allowed m a) (hrun : advance P a m = .ok m') :
      Reaches P db certManager allowed m'

end Machine

end DLedger
