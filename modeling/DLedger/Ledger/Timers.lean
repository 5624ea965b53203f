import DLedger.Ledger.Send
import DLedger.Lib.Heartbeat

set_option autoImplicit false

/-! # The timers of a ledger

A ledger has two timers: `m_syncEventID` sends its next sync Interest, `m_replySyncEventID` a sync
Interest in reply to one that is behind. An event loop makes the calls and runs the callbacks of
the timers. Its clock is that of the scheduler, in milliseconds; the clock that a call reads is in
its `Ambient`.
-/

namespace DLedger

open LedgerImpl
open Tlv (Block)

/-! ## Events and timers -/

def Event.isSyncInterest : Event → Bool
  | .syncInterest _ _ => true
  | _ => false

def Event.isReplyScheduled : Event → Bool
  | .replyScheduled => true
  | _ => false

/-- The times at which the timers are due; `none` when nothing is scheduled. -/
structure Timers where
  syncEventID : Option Int := none
  replySyncEventID : Option Int := none

/-- What an event does to the timers. A sync Interest that is expressed cancels the next one and
schedules it anew. -/
def Timers.onEvent (now syncInterval delay : Int) : Event → Timers → Timers
  | .syncInterest _ _, timers => { timers with syncEventID := some (now + syncInterval) }
  | .replyCancelled, timers => { timers with replySyncEventID := none }
  | .replyScheduled, timers => { timers with replySyncEventID := some (now + delay) }
  | _, timers => timers

/-- A ledger in an event loop. -/
structure Scheduled (σ : Type) where
  ledger : LedgerImpl σ
  clock : Int
  timers : Timers
  /-- The events of the log with their times: a history that nothing reads. -/
  stamps : List (Int × Event)

structure EventLoop where
  /-- `Config::syncInterval`. -/
  syncInterval : Int
  /-- By how much the loop may be late. -/
  lateness : Int

/-- What the event loop does next. The delay is the one that a reply is scheduled with. -/
inductive Turn where
  | wait (time : Int)
  | call (c : LedgerImpl.Call) (delay : Int)
  | onSyncEvent (amb : Ambient)
  | onReplySyncEvent (amb : Ambient)

namespace Scheduled

variable {σ : Type} (P : Peer σ) (L : EventLoop)

/-- The events that a call has logged. -/
def newEvents (s s' : LedgerImpl σ) : List Event :=
  s'.log.take (s'.log.length - s.log.length)

def stamp (delay : Int) (e : Event) (t : Scheduled σ) : Scheduled σ :=
  { t with
    timers := t.timers.onEvent t.clock L.syncInterval delay e
    stamps := (t.clock, e) :: t.stamps }

/-- The ledger has come to another state, at one time. -/
def become (delay : Int) (s : LedgerImpl σ) (t : Scheduled σ) : Scheduled σ :=
  { (newEvents t.ledger s).foldr (stamp L delay) t with ledger := s }

/-- The callback of a timer runs when nothing is scheduled for it any more. -/
def turn : Turn → Scheduled σ → Scheduled σ
  | .wait time, t => { t with clock := time }
  | .call c delay, t => t.become L delay (LedgerImpl.call P c t.ledger).1
  | .onSyncEvent amb, t =>
      let t := { t with timers := { t.timers with syncEventID := none } }
      t.become L 0 (sendSyncInterest amb t.ledger).1
  | .onReplySyncEvent amb, t =>
      let t := { t with timers := { t.timers with replySyncEventID := none } }
      t.become L 0 (sendSyncInterest amb t.ledger).1

/-- A sync Interest is sent by a call or by a timer, and time does not pass a timer that is due by
more than the lateness. -/
def Enabled (t : Scheduled σ) : Turn → Prop
  | .wait time => t.clock ≤ time ∧
      (∀ due, t.timers.syncEventID = some due → time ≤ due + L.lateness) ∧
      ∀ due, t.timers.replySyncEventID = some due → time ≤ due + L.lateness
  | .call c delay => (∀ amb, c ≠ .sendSyncInterest amb) ∧ 10 ≤ delay ∧ delay ≤ 200
  | .onSyncEvent _ => ∃ due, t.timers.syncEventID = some due ∧ due ≤ t.clock
  | .onReplySyncEvent _ => ∃ due, t.timers.replySyncEventID = some due ∧ due ≤ t.clock

/-- A ledger before its constructor. -/
def init (start : Int) (backend : Backend) (certManager : σ) : Scheduled σ where
  ledger := blank backend certManager
  clock := start
  timers := {}
  stamps := []

/-- A ledger just after its constructor. -/
def launch (start : Int) (amb : Ambient) (backend : Backend) (certManager : σ) : Scheduled σ :=
  (init start backend certManager).become L 0 (construct P amb backend certManager).1

/-- The runs from a state, with their turns, newest first. Exceptions may escape from calls. -/
inductive Run (t₀ : Scheduled σ) : List Turn → Scheduled σ → Prop where
  | nil : Run t₀ [] t₀
  | turn {turns : List Turn} {t : Scheduled σ} (h : Run t₀ turns t) (a : Turn)
      (ha : Enabled L t a) : Run t₀ (a :: turns) (turn P L a t)

/-- The times at which sync Interests were sent, newest first. -/
def sent (t : Scheduled σ) : List Int :=
  (t.stamps.filter fun stamped => stamped.2.isSyncInterest).map Prod.fst

/-- How often a reply was scheduled. -/
def repliesScheduled (t : Scheduled σ) : Nat := t.ledger.log.countP Event.isReplyScheduled

def heart (t : Scheduled σ) : Heartbeat.State := ⟨t.clock, t.timers.syncEventID, t.sent⟩

/-- One, where a reply is due. -/
def pending (t : Scheduled σ) : Nat := if t.timers.replySyncEventID = none then 0 else 1

end Scheduled

def Turn.isCreate : Turn → Bool
  | .call (.createRecord _ _) _ => true
  | _ => false

/-! ## What calls log -/

namespace LedgerImpl

variable {σ : Type} {P : Peer σ} {amb : Ambient} {s s' : LedgerImpl σ}

theorem onRecordConfirmed_suffix (record : Record) (s : LedgerImpl σ) :
    s.log <:+ (onRecordConfirmed P amb record s).1.log := by
  cases hdata : record.data with
  | none =>
      simp only [onRecordConfirmed, hdata]
      exact List.suffix_rfl
  | some d =>
      obtain ⟨_, _, events, heq, _⟩ := onRecordConfirmed_eq P amb hdata s
      rw [heq]
      exact (List.suffix_cons _ _).trans (List.suffix_append _ _)

theorem log_frame (log : List Event) :
    CallFrame P (fun s => log <:+ s.log) (fun _ => True) (fun _ => True) where
  withTail _ _ h := h
  withStack _ _ h := h
  confirm _ record s _ h := h.trans (onRecordConfirmed_suffix record s)
  blank := trivial
  waiting _ _ := trivial
  insert _ _ _ _ h := h.trans (List.suffix_cons _ _)
  quiet _ _ _ h := h.trans (List.suffix_cons _ _)

/-- **The log only grows**, however a call ends. -/
theorem call_log (c : Call) (s : LedgerImpl σ) : s.log <:+ (call P c s).1.log := by
  have hstart : Keeps (fun s' : LedgerImpl σ => s.log <:+ s'.log) (fun _ => True) (fun _ => True)
      s := ⟨List.suffix_rfl, fun _ _ _ => trivial, fun _ _ => trivial⟩
  exact (hstart.call (log_frame s.log) (c := c) permits_of_trivial).holds

/-- How many sync Interests were sent. -/
def syncInterests (s : LedgerImpl σ) : Nat := s.log.countP Event.isSyncInterest

theorem onRecordConfirmed_syncInterests (record : Record) (s : LedgerImpl σ) :
    (onRecordConfirmed P amb record s).1.syncInterests = s.syncInterests := by
  cases hdata : record.data with
  | none => simp only [onRecordConfirmed, hdata]
  | some d =>
      obtain ⟨_, _, events, heq, _, hevents⟩ := onRecordConfirmed_eq P amb hdata s
      rw [heq]
      rcases hevents with rfl | rfl <;> rfl

/-- Additions send none. -/
theorem syncInterests_frame (count : Nat) :
    ScanFrame P (fun s => s.syncInterests = count) (fun _ => True) (fun _ => True) where
  withTail _ _ h := h
  withStack _ _ h := h
  confirm _ record s _ h := (onRecordConfirmed_syncInterests record s).trans h
  blank := trivial
  waiting _ _ := trivial
  insert _ _ _ _ h := h

variable (P amb) in
theorem addToTailingRecord_syncInterests (record : Record) (endorseVerified : Bool)
    (s : LedgerImpl σ) :
    (addToTailingRecord P amb record endorseVerified s).1.syncInterests = s.syncInterests := by
  have hstart : Keeps (fun s' : LedgerImpl σ => s'.syncInterests = s.syncInterests)
      (fun _ => True) (fun _ => True) s := ⟨rfl, fun _ _ _ => trivial, fun _ _ => trivial⟩
  exact (Keeps.addToTailingRecord (syncInterests_frame _).toFrame hstart trivial fun hI => hI).holds

variable (amb) in
theorem sendSyncInterest_cases (s : LedgerImpl σ) :
    (amb.signInterest = .ok () ∧
        (sendSyncInterest amb s).1 = s.emit (.syncInterest s.lastCertRecords (frontier s))) ∨
      (amb.signInterest ≠ .ok () ∧ (sendSyncInterest amb s).1 = s) := by
  unfold sendSyncInterest
  cases amb.signInterest with
  | error reason => exact Or.inr ⟨nofun, rfl⟩
  | ok u =>
      cases u
      exact Or.inl ⟨rfl, rfl⟩

variable (amb) in
theorem sendSyncInterest_syncInterests (s : LedgerImpl σ) :
    (sendSyncInterest amb s).1.syncInterests ≤ s.syncInterests + 1 := by
  rcases sendSyncInterest_cases amb s with ⟨_, heq⟩ | ⟨_, heq⟩
  · have hcount : (s.emit (.syncInterest s.lastCertRecords (frontier s))).syncInterests
        = s.syncInterests + 1 := List.countP_cons_of_pos rfl
    rw [heq, hcount]
  · rw [heq]
    exact Nat.le_succ _

theorem createRecord_syncInterests (record : Record) (s : LedgerImpl σ) :
    (createRecord P amb record s).1.syncInterests ≤ s.syncInterests + 1 := by
  unfold createRecord
  rcases buildRecord P amb record s with ⟨record', f | code | data⟩
  · exact Nat.le_succ _
  · exact Nat.le_succ _
  have hadd := addToTailingRecord_syncInterests P amb
    { record' with data := some data } true s
  simp only
  rcases hrun : addToTailingRecord P amb { record' with data := some data } true s
    with ⟨s₁, f | ⟨⟨⟩⟩⟩
  · rw [hrun] at hadd
    exact hadd.le.trans (Nat.le_succ _)
  · rw [hrun] at hadd
    have hsend := sendSyncInterest_syncInterests amb s₁
    rw [show s₁.syncInterests = s.syncInterests from hadd] at hsend
    simp only
    rcases hsync : sendSyncInterest amb s₁ with ⟨s₂, _ | _ | _ | _⟩ <;>
      · rw [hsync] at hsend
        exact hsend

theorem onFetchedRecord_syncInterests (data : Data) (s : LedgerImpl σ) :
    (onFetchedRecord P amb data s).1.syncInterests = s.syncInterests := by
  rcases onFetchedRecord_cases P amb data s with hrun | ⟨record, hr⟩
  · rw [hrun]
  have hreceived : (received P amb.now record s).syncInterests = s.syncInterests := by
    have hnone : Event.isSyncInterest ∘ Event.fetch = fun _ => false := rfl
    rw [syncInterests, received, List.countP_append, List.countP_reverse, List.countP_map, hnone,
      List.countP_false]
    exact Nat.zero_add _
  rw [hr.onFetchedRecord_eq]
  split_ifs
  · have hstart : Keeps (fun s' : LedgerImpl σ => s'.syncInterests = s.syncInterests)
        (fun _ => True) (fun _ => True) (received P amb.now record s) :=
      ⟨hreceived, fun _ _ _ => trivial, fun _ _ => trivial⟩
    exact (Keeps.rescanStack (syncInterests_frame _) _ none hstart).holds
  · exact hreceived

theorem onSyncItem_ledger (item : Block) (st : LedgerImpl σ × SyncFlags) :
    (onSyncItem P item st).1.1 = st.1 ∨ ∃ n, (onSyncItem P item st).1.1 = fetchRecord n st.1 := by
  unfold onSyncItem onSyncCertificate
  split_ifs
  · cases KeyLocator.getName item with
    | none => exact Or.inl rfl
    | some name =>
        simp only
        cases RecordName.ofName name with
        | error e => exact Or.inl rfl
        | ok certName =>
            simp only
            split_ifs
            · exact Or.inr ⟨_, rfl⟩
            · exact Or.inl rfl
  · exact Or.inl rfl
  · cases Name.wireDecode item with
    | none => exact Or.inl rfl
    | some recordName =>
        simp only
        split_ifs
        · exact Or.inl rfl
        · exact Or.inl rfl
        · exact Or.inr ⟨_, rfl⟩

theorem onLedgerSyncRequest_syncInterests (interest : Interest) (s : LedgerImpl σ) :
    (onLedgerSyncRequest P interest s).1.syncInterests = s.syncInterests := by
  unfold onLedgerSyncRequest
  rcases P.certManager.verifyInterest s.certManager interest with e | _ | _
  · rfl
  · rfl
  simp only
  cases Tlv.parse interest.applicationParameters with
  | none => rfl
  | some elements =>
      have hloop : (Outcome.forEach (onSyncItem P) elements
          (s.emit .replyCancelled, {})).1.1.syncInterests = s.syncInterests := by
        refine Outcome.forEach_invariant
          (fun st : LedgerImpl σ × SyncFlags => st.1.syncInterests = s.syncInterests)
          (fun item _ st hst => ?_) rfl
        rcases onSyncItem_ledger (P := P) item st with heq | ⟨n, heq⟩
        · rw [heq, hst]
        · rw [heq]
          exact hst
      simp only
      rcases hrun : Outcome.forEach (onSyncItem P) elements (s.emit .replyCancelled, {}) with
        ⟨st, f | ⟨⟨⟩⟩⟩
      · rw [hrun] at hloop
        exact hloop
      · rw [hrun] at hloop
        simp only
        split_ifs
        · exact hloop
        · exact hloop

theorem onRecordRequest_syncInterests (interest : Interest) (s : LedgerImpl σ) :
    (onRecordRequest P interest s).1.syncInterests = s.syncInterests := by
  unfold onRecordRequest
  rcases s.getRecord P interest.name with e | _ | record
  · rfl
  · rfl
  · simp only
    cases record.data with
    | none => rfl
    | some data => rfl

/-- **Only a call that creates a record sends a sync Interest**, and not more than one. -/
theorem call_syncInterests {c : Call} (hc : ∀ amb, c ≠ .sendSyncInterest amb) (delay : Int)
    (s : LedgerImpl σ) :
    (call P c s).1.syncInterests ≤ s.syncInterests + (Turn.call c delay).isCreate.toNat := by
  cases c with
  | createRecord amb record => exact createRecord_syncInterests record s
  | onFetchedRecord amb data => exact (onFetchedRecord_syncInterests data s).le
  | onLedgerSyncRequest amb interest => exact (onLedgerSyncRequest_syncInterests interest s).le
  | onRecordRequest amb interest => exact (onRecordRequest_syncInterests interest s).le
  | sendSyncInterest amb => exact absurd rfl (hc amb)

end LedgerImpl

end DLedger
