import DLedger.Backend
import DLedger.Cert.CertManager

set_option autoImplicit false

/-! # The state of a ledger

`LedgerImpl` holds what the class of that name holds: the database, the tailing records, the
records that wait for their ancestors, the last certificate records and the state of the
certificate manager. It also keeps a log of what the ledger did, newest entry first.
-/

namespace DLedger

open Tlv (Bytes Block)

/-! ## The peer and its surroundings -/

/-- What does not change while a ledger runs. -/
structure Peer (σ : Type) where
  ndn : Ndn
  config : Config
  certManager : CertificateManager σ
  /-- Whether `addToTailingRecord` executes the erase of deep records. It does in the source;
  `false` is the plain variant that the source is compared with. -/
  removesDeep : Bool := true

/-- What one call of the ledger takes from its surroundings: the clock, the callbacks of the
application, whether a write to the database succeeds, the key chain and the random engine.
The callbacks are functions of the packet, so they do not call back into the ledger. -/
structure Ambient where
  now : Int
  onRecordAppRetrievalCheck : Option (Data → Bool)
  onRecordAppEndorseCheck : Option (Data → Bool)
  putOk : Name → Bool
  /-- The signature over a name and a content, or the text of the exception. -/
  signData : Name → Bytes → Except String Bytes
  signInterest : Except String Unit
  shuffle : List (Name × Nat) → List (Name × Nat)
  shuffle_perm : ∀ l, (shuffle l).Perm l

/-! ## The state -/

structure TailingRecordState where
  parentEndorseVerified : Bool := false
  refSet : Finset Name := ∅
  recordEndorseVerified : Bool := false
  record : Record := {}
  addedTime : Int := 0

abbrev TailMap := Std.TreeMap Name TailingRecordState

/-- The tail as a function. -/
abbrev TailMap.lookup (tail : TailMap) : Name → Option TailingRecordState := fun n => tail[n]?

/-- What a ledger does that can be observed. -/
inductive Event where
  /-- `addToTailingRecord` adds a record that is not in the tail. -/
  | inserted (record : Record) (endorseVerified : Bool)
  /-- `onRecordConfirmed` runs for a record. -/
  | confirmed (record : Record)
  /-- `m_onRecordAppConfirmed` is invoked. -/
  | appConfirmed (record : Record)
  /-- An Interest for a record is expressed. -/
  | fetch (recordName : Name)
  /-- A sync Interest is expressed, with these certificate and tailing record names. -/
  | syncInterest (certNames tailNames : List Name)
  | replyCancelled
  | replyScheduled
  /-- A record is sent in reply to an Interest. -/
  | replied (data : Data)

/-- The record that an event inserts, with its endorsement; the record that it confirms. -/
def Event.insertion? : Event → Option (Record × Bool)
  | .inserted record endorseVerified => some (record, endorseVerified)
  | _ => none

def Event.confirmation? : Event → Option Record
  | .confirmed record => some record
  | _ => none

/-- What an event adds to the confirmations of each call, newest call first. -/
def Event.addTo : Event → List (List Record) → List (List Record)
  | .inserted _ _, calls => [] :: calls
  | .confirmed record, call :: calls => (call ++ [record]) :: calls
  | _, calls => calls

structure LedgerImpl (σ : Type) where
  backend : Backend
  tailRecords : TailMap
  syncStack : List (Record × Int)
  lastCertRecords : List Name
  certManager : σ
  log : List Event

namespace LedgerImpl

variable {σ : Type} (P : Peer σ) (s : LedgerImpl σ)

def emit (e : Event) : LedgerImpl σ := { s with log := e :: s.log }

/-- `m_tailRecords[name] = state`. -/
def setTail (name : Name) (state : TailingRecordState) : LedgerImpl σ :=
  { s with tailRecords := s.tailRecords.insert name state }

def eraseTail (name : Name) : LedgerImpl σ :=
  { s with tailRecords := s.tailRecords.erase name }

/-- What was inserted and what was confirmed, newest first. -/
def insertions : List (Record × Bool) := s.log.filterMap Event.insertion?

def confirmations : List Record := s.log.filterMap Event.confirmation?

/-- The records that each call of `addToTailingRecord` confirmed, in the order in which it did;
newest call first. -/
def calls : List (List Record) := s.log.foldr Event.addTo []

/-- The ledger with another tail, or with another sync stack. -/
def withTail (tail : TailMap) : LedgerImpl σ := { s with tailRecords := tail }

def withStack (stack : List (Record × Int)) : LedgerImpl σ := { s with syncStack := stack }

/-! ## Reading the ledger -/

/-- `getRecord(const Name&)`. -/
def getRecord (rName : Name) : Except Exn (Option Record) :=
  match s.tailRecords[rName]? with
  | some state => .ok (if state.parentEndorseVerified then some state.record else none)
  | none =>
      match s.backend.getRecord P.ndn rName with
      | some data => (Record.ofData P.ndn data).map some
      | none => .ok none

def hasRecord (recordName : Bytes) : Bool :=
  match s.tailRecords[P.ndn.ofUri recordName]? with
  | some state => state.parentEndorseVerified
  | none => (s.backend.getRecord P.ndn (P.ndn.ofUri recordName)).isSome

def seenRecord (recordName : Name) : Bool :=
  s.tailRecords.contains recordName || (s.backend.getRecord P.ndn recordName).isSome

def listRecord (namePrefix : Bytes) : List Name :=
  (s.backend.listRecord P.ndn (P.ndn.ofUri namePrefix)).filter fun name =>
    match s.tailRecords[name]? with
    | some state => state.parentEndorseVerified
    | none => true

/-! ## Lookups after an update -/

@[simp] theorem emit_tailRecords (e : Event) : (s.emit e).tailRecords = s.tailRecords := rfl
@[simp] theorem emit_backend (e : Event) : (s.emit e).backend = s.backend := rfl
@[simp] theorem emit_syncStack (e : Event) : (s.emit e).syncStack = s.syncStack := rfl
@[simp] theorem emit_certManager (e : Event) : (s.emit e).certManager = s.certManager := rfl
@[simp] theorem emit_lastCertRecords (e : Event) :
    (s.emit e).lastCertRecords = s.lastCertRecords := rfl
@[simp] theorem emit_log (e : Event) : (s.emit e).log = e :: s.log := rfl

@[simp] theorem emit_insertions (e : Event) :
    (s.emit e).insertions = e.insertion?.toList ++ s.insertions := by
  cases h : e.insertion? <;> simp [insertions, h]
@[simp] theorem emit_confirmations (e : Event) :
    (s.emit e).confirmations = e.confirmation?.toList ++ s.confirmations := by
  cases h : e.confirmation? <;> simp [confirmations, h]

@[simp] theorem emit_calls (e : Event) : (s.emit e).calls = e.addTo s.calls := rfl

@[simp] theorem setTail_backend (n : Name) (t : TailingRecordState) :
    (s.setTail n t).backend = s.backend := rfl
@[simp] theorem setTail_syncStack (n : Name) (t : TailingRecordState) :
    (s.setTail n t).syncStack = s.syncStack := rfl
@[simp] theorem setTail_certManager (n : Name) (t : TailingRecordState) :
    (s.setTail n t).certManager = s.certManager := rfl
@[simp] theorem setTail_lastCertRecords (n : Name) (t : TailingRecordState) :
    (s.setTail n t).lastCertRecords = s.lastCertRecords := rfl
@[simp] theorem setTail_log (n : Name) (t : TailingRecordState) :
    (s.setTail n t).log = s.log := rfl

@[simp] theorem eraseTail_backend (n : Name) : (s.eraseTail n).backend = s.backend := rfl
@[simp] theorem eraseTail_syncStack (n : Name) :
    (s.eraseTail n).syncStack = s.syncStack := rfl
@[simp] theorem eraseTail_certManager (n : Name) :
    (s.eraseTail n).certManager = s.certManager := rfl
@[simp] theorem eraseTail_lastCertRecords (n : Name) :
    (s.eraseTail n).lastCertRecords = s.lastCertRecords := rfl
@[simp] theorem eraseTail_log (n : Name) : (s.eraseTail n).log = s.log := rfl

@[simp] theorem withTail_tailRecords (tail : TailMap) :
    (s.withTail tail).tailRecords = tail := rfl
@[simp] theorem withTail_backend (tail : TailMap) : (s.withTail tail).backend = s.backend := rfl
@[simp] theorem withTail_syncStack (tail : TailMap) :
    (s.withTail tail).syncStack = s.syncStack := rfl
@[simp] theorem withTail_certManager (tail : TailMap) :
    (s.withTail tail).certManager = s.certManager := rfl
@[simp] theorem withTail_lastCertRecords (tail : TailMap) :
    (s.withTail tail).lastCertRecords = s.lastCertRecords := rfl
@[simp] theorem withTail_log (tail : TailMap) : (s.withTail tail).log = s.log := rfl
@[simp] theorem withTail_insertions (tail : TailMap) :
    (s.withTail tail).insertions = s.insertions := rfl
@[simp] theorem withTail_confirmations (tail : TailMap) :
    (s.withTail tail).confirmations = s.confirmations := rfl
@[simp] theorem withTail_calls (tail : TailMap) : (s.withTail tail).calls = s.calls := rfl
@[simp] theorem withTail_withTail (tail tail' : TailMap) :
    (s.withTail tail).withTail tail' = s.withTail tail' := rfl
@[simp] theorem withTail_self : s.withTail s.tailRecords = s := rfl

@[simp] theorem withStack_tailRecords (stack : List (Record × Int)) :
    (s.withStack stack).tailRecords = s.tailRecords := rfl
@[simp] theorem withStack_backend (stack : List (Record × Int)) :
    (s.withStack stack).backend = s.backend := rfl
@[simp] theorem withStack_syncStack (stack : List (Record × Int)) :
    (s.withStack stack).syncStack = stack := rfl
@[simp] theorem withStack_certManager (stack : List (Record × Int)) :
    (s.withStack stack).certManager = s.certManager := rfl
@[simp] theorem withStack_lastCertRecords (stack : List (Record × Int)) :
    (s.withStack stack).lastCertRecords = s.lastCertRecords := rfl
@[simp] theorem withStack_log (stack : List (Record × Int)) :
    (s.withStack stack).log = s.log := rfl
@[simp] theorem withStack_insertions (stack : List (Record × Int)) :
    (s.withStack stack).insertions = s.insertions := rfl
@[simp] theorem withStack_confirmations (stack : List (Record × Int)) :
    (s.withStack stack).confirmations = s.confirmations := rfl
@[simp] theorem withStack_self : s.withStack s.syncStack = s := rfl

@[simp] theorem setTail_getElem? (n m : Name) (t : TailingRecordState) :
    (s.setTail n t).tailRecords[m]? = if n = m then some t else s.tailRecords[m]? := by
  simp only [setTail, Std.TreeMap.getElem?_insert, Std.LawfulEqOrd.compare_eq_iff_eq]

@[simp] theorem eraseTail_getElem? (n m : Name) :
    (s.eraseTail n).tailRecords[m]? = if n = m then none else s.tailRecords[m]? := by
  simp only [eraseTail, Std.TreeMap.getElem?_erase, Std.LawfulEqOrd.compare_eq_iff_eq]

variable {s P}

theorem seenRecord_iff {n : Name} : s.seenRecord P n = true ↔
    (∃ t, s.tailRecords[n]? = some t) ∨ ∃ d, s.backend.getRecord P.ndn n = some d := by
  rw [seenRecord, Bool.or_eq_true, Option.isSome_iff_exists,
    Std.TreeMap.contains_eq_isSome_getElem?, Option.isSome_iff_exists]

theorem seenRecord_eq_false {n : Name} : s.seenRecord P n = false ↔
    s.tailRecords[n]? = none ∧ s.backend.getRecord P.ndn n = none := by
  rw [← Bool.not_eq_true, seenRecord_iff, not_or]
  cases s.tailRecords[n]? <;> cases s.backend.getRecord P.ndn n <;> simp

theorem hasRecord_toUri {n : Name} : s.hasRecord P (P.ndn.toUri n) = true ↔
    (∃ t, s.tailRecords[n]? = some t ∧ t.parentEndorseVerified = true) ∨
      (s.tailRecords[n]? = none ∧ ∃ d, s.backend.getRecord P.ndn n = some d) := by
  rw [hasRecord, P.ndn.ofUri_toUri]
  cases s.tailRecords[n]? <;> simp [Option.isSome_iff_exists]

end LedgerImpl

end DLedger
