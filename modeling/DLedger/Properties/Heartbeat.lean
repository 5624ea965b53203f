import DLedger.Ledger.Sample
import DLedger.Ledger.Timers

set_option autoImplicit false

/-! # The heartbeat of a ledger

A ledger sends sync Interests by itself, when it has created a record and in reply. The timer that
sends them by itself is a heartbeat: as long as its callback can sign, sync Interests are never
further apart than `syncInterval`; it sends not more than one in each interval; and once its
callback cannot sign, the ledger falls silent.
-/

namespace DLedger

open LedgerImpl

namespace Scheduled

variable {σ : Type} {P : Peer σ} {L : EventLoop} {t t' t₀ : Scheduled σ} {s : LedgerImpl σ}
  {turns : List Turn} {amb : Ambient}

/-! ## A sync Interest is a beat -/

/-- How many sync Interests and replies an event list has: for each of the former a beat, and the
timer of the replies is set only by the latter. -/
theorem heart_stamps (delay : Int) (events : List Event) (t : Scheduled σ) :
    (events.foldr (stamp L delay) t).heart
      = (Heartbeat.State.beat L.syncInterval)^[events.countP Event.isSyncInterest] t.heart := by
  induction events with
  | nil => rfl
  | cons e events ih =>
      rw [List.foldr_cons]
      cases e with
      | syncInterest certNames tailNames =>
          rw [List.countP_cons_of_pos rfl, Function.iterate_succ_apply', ← ih]
          rfl
      | _ => exact ih

theorem pending_stamps (delay : Int) (events : List Event) (t : Scheduled σ) :
    (events.foldr (stamp L delay) t).pending
      ≤ t.pending + events.countP Event.isReplyScheduled := by
  induction events with
  | nil => exact le_refl _
  | cons e events ih =>
      rw [List.foldr_cons]
      cases e with
      | replyScheduled =>
          have hone : (stamp L delay .replyScheduled (events.foldr (stamp L delay) t)).pending = 1 :=
            rfl
          rw [List.countP_cons_of_pos rfl, hone]
          omega
      | replyCancelled => exact Nat.zero_le _
      | _ => exact ih

/-- The log of a ledger that has come to another state. -/
theorem newEvents_append (h : t.ledger.log <:+ s.log) :
    newEvents t.ledger s ++ t.ledger.log = s.log := by
  obtain ⟨events, heq⟩ := h
  rw [newEvents, ← heq, List.length_append, Nat.add_sub_cancel, List.take_left]

theorem newEvents_countP (p : Event → Bool) (h : t.ledger.log <:+ s.log) :
    (newEvents t.ledger s).countP p + t.ledger.log.countP p = s.log.countP p := by
  rw [← List.countP_append, newEvents_append h]

theorem newEvents_self (s : LedgerImpl σ) : newEvents s s = [] := by simp [newEvents]

theorem newEvents_emit (s : LedgerImpl σ) (e : Event) : newEvents s (s.emit e) = [e] := by
  simp [newEvents]

/-! ## The turns of the event loop -/

/-- What the timers' turns do to the heartbeat: acts of its own, of which one is a beat out of turn
only where a record is created or a reply comes off, and one fails only where the callback of the
timer cannot sign. -/
structure Pulse (L : EventLoop) (t : Scheduled σ) (turns : List Turn) (t' : Scheduled σ)
    (acts : List Heartbeat.Act) : Prop where
  run : Heartbeat.Run L.syncInterval L.lateness t.heart acts t'.heart
  beat : acts.count .beat + t'.pending + t.repliesScheduled
    ≤ turns.countP Turn.isCreate + t.pending + t'.repliesScheduled
  miss : .miss ∈ acts → ∃ amb, .onSyncEvent amb ∈ turns ∧ amb.signInterest ≠ .ok ()

theorem Pulse.trans {turns' : List Turn} {t'' : Scheduled σ} {acts acts' : List Heartbeat.Act}
    (h : Pulse L t turns t' acts) (h' : Pulse L t' turns' t'' acts') :
    Pulse L t (turns' ++ turns) t'' (acts' ++ acts) := by
  refine ⟨h.run.trans h'.run, ?_, fun hmem => ?_⟩
  · have hbeat := h.beat
    have hbeat' := h'.beat
    rw [List.count_append, List.countP_append]
    omega
  · rcases List.mem_append.1 hmem with hmem | hmem
    · obtain ⟨amb, hturn, hsign⟩ := h'.miss hmem
      exact ⟨amb, List.mem_append_left _ hturn, hsign⟩
    · obtain ⟨amb, hturn, hsign⟩ := h.miss hmem
      exact ⟨amb, List.mem_append_right _ hturn, hsign⟩

theorem pulse_call {c : Call} {delay : Int} (ha : Enabled L t (.call c delay)) :
    ∃ acts, Pulse L t [.call c delay] (turn P L (.call c delay) t) acts := by
  set s := (LedgerImpl.call P c t.ledger).1
  have hlog : t.ledger.log <:+ s.log := call_log c t.ledger
  have hsync := newEvents_countP Event.isSyncInterest hlog
  have hreply := newEvents_countP Event.isReplyScheduled hlog
  have hcalls : s.syncInterests
      ≤ t.ledger.syncInterests + (Turn.call c delay).isCreate.toNat :=
    call_syncInterests ha.1 delay t.ledger
  have hpending : (turn P L (.call c delay) t).pending
      ≤ t.pending + (newEvents t.ledger s).countP Event.isReplyScheduled :=
    pending_stamps delay (newEvents t.ledger s) t
  have hcount : [Turn.call c delay].countP Turn.isCreate = (Turn.call c delay).isCreate.toNat := by
    rw [List.countP_singleton]
    cases (Turn.call c delay).isCreate <;> rfl
  refine ⟨List.replicate ((newEvents t.ledger s).countP Event.isSyncInterest) .beat, ?_, ?_,
    fun hmem => ?_⟩
  · have hrun := Heartbeat.run_beat L.syncInterval L.lateness
      ((newEvents t.ledger s).countP Event.isSyncInterest) t.heart
    rw [← heart_stamps delay] at hrun
    exact hrun
  · have hreplies : (turn P L (.call c delay) t).repliesScheduled
        = s.log.countP Event.isReplyScheduled := rfl
    rw [List.count_replicate_self, hcount, hreplies, repliesScheduled]
    simp only [syncInterests] at hcalls
    omega
  · cases List.eq_of_mem_replicate hmem

/-- A ledger that sends a sync Interest. -/
def announce (L : EventLoop) (t : Scheduled σ) : Scheduled σ :=
  let e : Event := .syncInterest t.ledger.lastCertRecords (frontier t.ledger)
  { stamp L 0 e t with ledger := t.ledger.emit e }

variable (L) in
theorem become_sendSyncInterest (amb : Ambient) (t : Scheduled σ) :
    (amb.signInterest = .ok () ∧
        t.become L 0 (sendSyncInterest amb t.ledger).1 = announce L t) ∨
      (amb.signInterest ≠ .ok () ∧ t.become L 0 (sendSyncInterest amb t.ledger).1 = t) := by
  rcases sendSyncInterest_cases amb t.ledger with ⟨hsign, heq⟩ | ⟨hsign, heq⟩
  · refine Or.inl ⟨hsign, ?_⟩
    rw [heq, become, newEvents_emit]
    rfl
  · refine Or.inr ⟨hsign, ?_⟩
    rw [heq, become, newEvents_self]
    rfl

theorem pulse_onSyncEvent (ha : Enabled L t (.onSyncEvent amb)) :
    ∃ acts, Pulse L t [.onSyncEvent amb] (turn P L (.onSyncEvent amb) t) acts := by
  have hcount : [Turn.onSyncEvent amb].countP Turn.isCreate = 0 := rfl
  set t₁ : Scheduled σ := { t with timers := { t.timers with syncEventID := none } }
  rcases become_sendSyncInterest L amb t₁ with ⟨_, heq⟩ | ⟨hsign, heq⟩
  · have hturn : turn P L (.onSyncEvent amb) t = announce L t₁ := heq
    rw [hturn]
    refine ⟨[.timer], Heartbeat.Run.single ha, ?_, fun hmem => nomatch List.mem_singleton.1 hmem⟩
    have hpending : (announce L t₁).pending = t.pending := rfl
    have hreplies : (announce L t₁).repliesScheduled = t.repliesScheduled :=
      List.countP_cons_of_neg nofun
    rw [hcount, hpending, hreplies, List.count_singleton]
    simp
  · have hturn : turn P L (.onSyncEvent amb) t = t₁ := heq
    rw [hturn]
    refine ⟨[.miss], Heartbeat.Run.single ha, ?_, fun _ => ⟨amb, List.mem_singleton_self _, hsign⟩⟩
    have hpending : t₁.pending = t.pending := rfl
    have hreplies : t₁.repliesScheduled = t.repliesScheduled := rfl
    rw [hcount, hpending, hreplies, List.count_singleton]
    simp

theorem pulse_onReplySyncEvent (ha : Enabled L t (.onReplySyncEvent amb)) :
    ∃ acts, Pulse L t [.onReplySyncEvent amb] (turn P L (.onReplySyncEvent amb) t) acts := by
  have hone : t.pending = 1 := by
    obtain ⟨due, hdue, _⟩ := ha
    simp [pending, hdue]
  set t₁ : Scheduled σ := { t with timers := { t.timers with replySyncEventID := none } }
  rcases become_sendSyncInterest L amb t₁ with ⟨_, heq⟩ | ⟨_, heq⟩
  · have hturn : turn P L (.onReplySyncEvent amb) t = announce L t₁ := heq
    rw [hturn]
    refine ⟨[.beat], Heartbeat.Run.single trivial, ?_, fun hmem => nomatch List.mem_singleton.1 hmem⟩
    have hpending : (announce L t₁).pending = 0 := rfl
    have hreplies : (announce L t₁).repliesScheduled = t.repliesScheduled :=
      List.countP_cons_of_neg nofun
    rw [hpending, hreplies, hone, List.count_singleton_self]
    omega
  · have hturn : turn P L (.onReplySyncEvent amb) t = t₁ := heq
    rw [hturn]
    refine ⟨[], Heartbeat.Run.nil, ?_, fun hmem => absurd hmem List.not_mem_nil⟩
    have hpending : t₁.pending = 0 := rfl
    have hreplies : t₁.repliesScheduled = t.repliesScheduled := rfl
    rw [hpending, hreplies, List.count_nil]
    omega

/-- **A turn of the event loop** is some acts of the heartbeat. -/
theorem pulse_turn (a : Turn) (ha : Enabled L t a) : ∃ acts, Pulse L t [a] (turn P L a t) acts := by
  cases a with
  | wait time =>
      refine ⟨[.wait time], Heartbeat.Run.single ⟨ha.1, ha.2.1⟩, ?_,
        fun hmem => nomatch List.mem_singleton.1 hmem⟩
      have hpending : (turn P L (.wait time) t).pending = t.pending := rfl
      have hreplies : (turn P L (.wait time) t).repliesScheduled = t.repliesScheduled := rfl
      have hcount : [Turn.wait time].countP Turn.isCreate = 0 := rfl
      rw [hcount, hpending, hreplies, List.count_singleton]
      simp
  | call c delay => exact pulse_call ha
  | onSyncEvent amb => exact pulse_onSyncEvent ha
  | onReplySyncEvent amb => exact pulse_onReplySyncEvent ha

/-- So is a run. -/
theorem Run.pulse (h : Run P L t₀ turns t) : ∃ acts, Pulse L t₀ turns t acts := by
  induction h with
  | nil => exact ⟨[], Heartbeat.Run.nil, by simp, fun hmem => absurd hmem List.not_mem_nil⟩
  | turn _ a ha ih =>
      obtain ⟨acts, hrun⟩ := ih
      obtain ⟨acts', hturn⟩ := pulse_turn (P := P) a ha
      exact ⟨acts' ++ acts, hrun.trans hturn⟩

/-! ## The constructor -/

section Launch

variable {start : Int} {db : Backend} {certManager : σ}

/-- The constructor sends one sync Interest, if it can sign it. -/
theorem construct_syncInterests (h : (construct P amb db certManager).2 = .ok ()) :
    (construct P amb db certManager).1.syncInterests ≤ 1 ∧
      (amb.signInterest = .ok () → (construct P amb db certManager).1.syncInterests = 1) := by
  obtain ⟨_, s₁, hloop, heq⟩ := construct_ok (Outcome.eq_of_returns h)
  have hgenesis : s₁.syncInterests = 0 := by
    refine Outcome.forEach_ok_invariant (fun s : LedgerImpl σ => s.syncInterests = 0)
      (fun i _ s s' hs hadd => ?_) rfl hloop
    unfold addGenesis at hadd
    cases hdata : genesisData P i with
    | error e =>
        rw [hdata] at hadd
        cases hadd
    | ok record =>
        rw [hdata] at hadd
        have hsame := addToTailingRecord_syncInterests P amb record true s
        simp only at hadd
        rw [hadd] at hsame
        rw [hsame, hs]
  rw [heq]
  rcases sendSyncInterest_cases amb s₁ with ⟨_, hsent⟩ | ⟨hsign, hsent⟩
  · have hone : (s₁.emit (.syncInterest s₁.lastCertRecords (frontier s₁))).syncInterests = 1 := by
      rw [syncInterests, emit_log, List.countP_cons_of_pos rfl, ← syncInterests, hgenesis]
    rw [hsent]
    exact ⟨hone.le, fun _ => hone⟩
  · rw [hsent, hgenesis]
    exact ⟨Nat.zero_le _, fun h => absurd h hsign⟩

theorem newEvents_blank (s : LedgerImpl σ) : newEvents (blank db certManager) s = s.log :=
  List.take_length

variable (P L amb start db certManager) in
theorem launch_eq : launch P L start amb db certManager
    = { (construct P amb db certManager).1.log.foldr (stamp L 0) (init start db certManager) with
        ledger := (construct P amb db certManager).1 } := by
  have hnew : newEvents (init start db certManager).ledger (construct P amb db certManager).1
      = (construct P amb db certManager).1.log := newEvents_blank _
  rw [launch, become, hnew]

theorem launch_heart : (launch P L start amb db certManager).heart
    = (Heartbeat.State.beat L.syncInterval)^[(construct P amb db certManager).1.syncInterests]
        ⟨start, none, []⟩ := by
  rw [launch_eq]
  exact heart_stamps 0 (construct P amb db certManager).1.log (init start db certManager)

variable (L start) in
/-- The heart at the start: it has beaten once, or it is not armed. -/
theorem launch_heart_cases (h : (construct P amb db certManager).2 = .ok ()) :
    (launch P L start amb db certManager).heart
        = Heartbeat.State.beat L.syncInterval ⟨start, none, []⟩ ∨
      amb.signInterest ≠ .ok () ∧ (launch P L start amb db certManager).heart = ⟨start, none, []⟩ := by
  obtain ⟨hone, hsign⟩ := construct_syncInterests h
  rw [launch_heart]
  rcases Nat.le_one_iff_eq_zero_or_eq_one.1 hone with hcount | hcount
  · refine Or.inr ⟨fun hok => ?_, by rw [hcount]; rfl⟩
    rw [hsign hok] at hcount
    cases hcount
  · exact Or.inl (by rw [hcount]; rfl)

variable (P L amb start db certManager) in
theorem launch_pending : (launch P L start amb db certManager).pending
    ≤ (launch P L start amb db certManager).repliesScheduled := by
  have hstamps := pending_stamps (L := L) 0 (construct P amb db certManager).1.log
    (init start db certManager)
  have hnone : (init start db certManager).pending = 0 := rfl
  rw [hnone, Nat.zero_add] at hstamps
  rw [launch_eq]
  exact hstamps

end Launch

/-! ## The history -/

theorem stamps_foldr (delay : Int) (events : List Event) (t : Scheduled σ) :
    (events.foldr (stamp L delay) t).stamps.map Prod.snd = events ++ t.stamps.map Prod.snd := by
  induction events with
  | nil => rfl
  | cons e events ih =>
      rw [List.foldr_cons, stamp, List.map_cons, ih]
      rfl

/-- The stamped events are those of the log. -/
def Stamped (t : Scheduled σ) : Prop := t.stamps.map Prod.snd = t.ledger.log

theorem Stamped.become (ht : t.Stamped) {delay : Int} (h : t.ledger.log <:+ s.log) :
    (t.become L delay s).Stamped := by
  have hstamps := stamps_foldr (L := L) delay (newEvents t.ledger s) t
  rw [ht, newEvents_append h] at hstamps
  exact hstamps

theorem Stamped.turn (ht : t.Stamped) (a : Turn) : (turn P L a t).Stamped := by
  cases a with
  | wait time => exact ht
  | call c delay => exact ht.become (call_log c t.ledger)
  | onSyncEvent amb =>
      set t₁ : Scheduled σ := { t with timers := { t.timers with syncEventID := none } }
      have ht₁ : t₁.Stamped := ht
      exact ht₁.become (call_log (P := P) (.sendSyncInterest amb) t.ledger)
  | onReplySyncEvent amb =>
      set t₁ : Scheduled σ := { t with timers := { t.timers with replySyncEventID := none } }
      have ht₁ : t₁.Stamped := ht
      exact ht₁.become (call_log (P := P) (.sendSyncInterest amb) t.ledger)

theorem Run.stamped (h : Run P L t₀ turns t) (h₀ : t₀.Stamped) : t.Stamped := by
  induction h with
  | nil => exact h₀
  | turn _ a _ ih => exact ih.turn a

theorem launch_stamped (start : Int) (db : Backend) (certManager : σ) :
    (launch P L start amb db certManager).Stamped := by
  have hinit : (init start db certManager).Stamped := rfl
  exact hinit.become (List.nil_suffix)

theorem Stamped.length_sent (ht : t.Stamped) : t.sent.length = t.ledger.syncInterests := by
  rw [syncInterests, ← ht, List.countP_map, sent, List.length_map, List.countP_eq_length_filter]
  rfl

/-- A wait for the sync timer. -/
theorem Run.wait_armed {time due : Int} (h : Run P L t₀ turns t)
    (hsync : t.timers.syncEventID = some due) (hreply : t.timers.replySyncEventID = none)
    (hclock : t.clock ≤ time) (hlate : time ≤ due + L.lateness) :
    Run P L t₀ (.wait time :: turns) (Scheduled.turn P L (.wait time) t) := by
  refine h.turn (.wait time) ⟨hclock, fun due' hdue' => ?_, fun due' hdue' => ?_⟩
  · rw [hsync] at hdue'
    cases hdue'
    exact hlate
  · rw [hreply] at hdue'
    cases hdue'

/-- A wait for the sync timer, and its callback. -/
theorem Run.beat_after {time due : Int} (h : Run P L t₀ turns t)
    (hsync : t.timers.syncEventID = some due) (hreply : t.timers.replySyncEventID = none)
    (hclock : t.clock ≤ time) (hdue : due ≤ time) (hlate : time ≤ due + L.lateness)
    (amb : Ambient) :
    Run P L t₀ (.onSyncEvent amb :: .wait time :: turns)
      (Scheduled.turn P L (.onSyncEvent amb) (Scheduled.turn P L (.wait time) t)) :=
  (h.wait_armed hsync hreply hclock hlate).turn (.onSyncEvent amb) ⟨due, hsync, hdue⟩

/-- A wait while nothing is scheduled. -/
theorem Run.wait_unarmed {time : Int} (h : Run P L t₀ turns t)
    (hsync : t.timers.syncEventID = none) (hreply : t.timers.replySyncEventID = none)
    (hclock : t.clock ≤ time) :
    Run P L t₀ (.wait time :: turns) (Scheduled.turn P L (.wait time) t) := by
  refine h.turn (.wait time) ⟨hclock, fun due hdue => ?_, fun due hdue => ?_⟩
  · rw [hsync] at hdue
    cases hdue
  · rw [hreply] at hdue
    cases hdue

/-! ## The heartbeat -/

section Runs

variable {start : Int} {db : Backend} {certManager : σ}

/-- **The heartbeat does not pause.** In every run in which the constructor and the callback of
the sync timer can sign, whatever happens to the other calls, the times at which sync Interests
were sent and the present are in order, and no two neighbours are further apart than `syncInterval`
and the lateness of the event loop; the first one is that of the constructor. -/
theorem heartbeat (hnonneg : 0 ≤ L.syncInterval + L.lateness)
    (hconstruct : (construct P amb db certManager).2 = .ok ()) (hsign : amb.signInterest = .ok ())
    (h : Run P L (launch P L start amb db certManager) turns t)
    (hsigns : ∀ amb', .onSyncEvent amb' ∈ turns → amb'.signInterest = .ok ()) :
    (t.clock :: t.sent).IsChain (fun later earlier =>
        earlier ≤ later ∧ later ≤ earlier + (L.syncInterval + L.lateness)) ∧
      t.sent.getLast? = some start ∧ t.sent.length = t.ledger.syncInterests := by
  have hlaunch := (launch_heart_cases L start hconstruct).resolve_right
    fun hfail => hfail.1 hsign
  obtain ⟨acts, hpulse⟩ := h.pulse
  have hrun := hpulse.run
  rw [hlaunch] at hrun
  have hmiss : .miss ∉ acts := by
    intro hmem
    obtain ⟨amb', hturn, hfail⟩ := hpulse.miss hmem
    exact hfail (hsigns amb' hturn)
  have halive := hrun.alive hnonneg
    (Heartbeat.alive_beat hnonneg (List.isChain_singleton _)) hmiss
  refine ⟨halive.chain, ?_, (h.stamped (launch_stamped _ _ _)).length_sent⟩
  obtain ⟨later, hbeats⟩ := hrun.beats_suffix
  have hsent : t.sent = later ++ [start] := hbeats.symm
  rw [hsent, List.getLast?_append, List.getLast?_singleton]
  rfl

/-- A ledger that sends its second sync Interest a little late, evaluated. -/
theorem late_evaluated :
    let P := Sample.peer (Sample.config 1 5 1)
    let L : EventLoop := ⟨5000, 100⟩
    let t₀ := launch P L 0 Sample.ambient Backend.empty ()
    let t := turn P L (.onSyncEvent Sample.ambient) (turn P L (.wait 5050) t₀)
    ((construct P Sample.ambient Backend.empty ()).2 = .ok () ∧ t₀.clock = 0 ∧
        t₀.timers.syncEventID = some 5000 ∧ t₀.timers.replySyncEventID = none) ∧
      t.sent = [5050, 0] ∧ t.ledger.syncInterests = 2 ∧ t.repliesScheduled = 0 ∧
        t.clock = 5050 := by
  decide +kernel

theorem late_run :
    let P := Sample.peer (Sample.config 1 5 1)
    let L : EventLoop := ⟨5000, 100⟩
    let t₀ := launch P L 0 Sample.ambient Backend.empty ()
    Run P L t₀ [.onSyncEvent Sample.ambient, .wait 5050]
      (turn P L (.onSyncEvent Sample.ambient) (turn P L (.wait 5050) t₀)) := by
  intro P L t₀
  obtain ⟨⟨_, hstart, hsync, hreply⟩, _⟩ := late_evaluated
  exact Run.nil.beat_after hsync hreply (by rw [hstart]; decide) (by decide) (by decide)
    Sample.ambient

/-- The second sync Interest is a little late. -/
theorem heartbeat_late :
    let P := Sample.peer (Sample.config 1 5 1)
    let L : EventLoop := ⟨5000, 100⟩
    let t₀ := launch P L 0 Sample.ambient Backend.empty ()
    let t := turn P L (.onSyncEvent Sample.ambient) (turn P L (.wait 5050) t₀)
    t.sent = [5050, 0] ∧ (t.clock :: t.sent).IsChain (fun later earlier =>
      earlier ≤ later ∧ later ≤ earlier + (5000 + 100)) := by
  intro P L t₀ t
  obtain ⟨⟨hconstruct, _⟩, hsent, _⟩ := late_evaluated
  have hsigns : ∀ amb', Turn.onSyncEvent amb' ∈ [.onSyncEvent Sample.ambient, .wait 5050] →
      amb'.signInterest = .ok () := by
    intro amb' hturn
    have heq : Turn.onSyncEvent amb' = .onSyncEvent Sample.ambient := by simpa using hturn
    cases heq
    rfl
  exact ⟨hsent, (heartbeat (by decide) hconstruct rfl late_run hsigns).1⟩

/-- **The ledger is not chatty.** In every run it has sent not more sync Interests than one for its
constructor, one for each record that it was to create, one for each reply that it scheduled and
one for each `syncInterval` that has passed. -/
theorem sync_traffic (hpos : 0 < L.syncInterval)
    (hconstruct : (construct P amb db certManager).2 = .ok ())
    (h : Run P L (launch P L start amb db certManager) turns t) :
    (t.ledger.syncInterests : Int) ≤ 1 + turns.countP Turn.isCreate + t.repliesScheduled
      + (t.clock - start) / L.syncInterval := by
  obtain ⟨acts, hpulse⟩ := h.pulse
  have hpending := launch_pending P L amb start db certManager
  have hbeat := hpulse.beat
  have hlength := hpulse.run.length_beats
  have hcount : t.heart.beats.length = t.ledger.syncInterests :=
    (h.stamped (launch_stamped _ _ _)).length_sent
  -- an interval has passed for each beat of the timer
  have hstart : (launch P L start amb db certManager).heart.clock = start ∧
      (launch P L start amb db certManager).heart.beats.length ≤ 1 ∧
      ∀ due, (launch P L start amb db certManager).heart.due = some due →
        (launch P L start amb db certManager).heart.clock + L.syncInterval ≤ due := by
    rcases launch_heart_cases L start hconstruct with heq | ⟨_, heq⟩
    · rw [heq]
      exact ⟨rfl, le_refl _, fun due hdue => (Option.some.inj hdue).le⟩
    · rw [heq]
      exact ⟨rfl, Nat.zero_le _, fun due hdue => nomatch hdue⟩
  have htimer := hpulse.run.timer_le hstart.2.2
  rw [hstart.1] at htimer
  have hdiv : (acts.count .timer : Int) ≤ (t.clock - start) / L.syncInterval :=
    (Int.le_ediv_iff_mul_le hpos).2 htimer
  have hbeats : acts.count .beat ≤ turns.countP Turn.isCreate + t.repliesScheduled := by omega
  have hsum : t.ledger.syncInterests
      ≤ 1 + (turns.countP Turn.isCreate + t.repliesScheduled) + acts.count .timer := by
    have hle := hstart.2.1
    omega
  omega

/-- The bound is reached. -/
theorem sync_traffic_late :
    let P := Sample.peer (Sample.config 1 5 1)
    let L : EventLoop := ⟨5000, 100⟩
    let t₀ := launch P L 0 Sample.ambient Backend.empty ()
    let t := turn P L (.onSyncEvent Sample.ambient) (turn P L (.wait 5050) t₀)
    t.ledger.syncInterests = 2 ∧ (t.ledger.syncInterests : Int) ≤ 2 := by
  intro P L t₀ t
  obtain ⟨⟨hconstruct, _⟩, _, hinterests, hreplies, hclock⟩ := late_evaluated
  have hbound := sync_traffic (by decide) hconstruct late_run
  rw [hreplies, hclock] at hbound
  exact ⟨hinterests, hbound⟩

/-- **A heart that fails once stops.** When the callback of the sync timer cannot sign and no reply
is due, the ledger sends no sync Interest any more, however long it runs and whatever it receives,
until the application is to create a record or a reply is scheduled. -/
theorem heart_stops (h : Run P L (launch P L start amb db certManager) turns t) {amb' : Ambient}
    (hsign : amb'.signInterest ≠ .ok ())
    (hreply : t.timers.replySyncEventID = none) {turns' : List Turn}
    (h' : Run P L (turn P L (.onSyncEvent amb') t) turns' t')
    (hcreate : ∀ a ∈ turns', a.isCreate = false)
    (hreplies : t'.repliesScheduled = t.repliesScheduled) :
    t'.ledger.syncInterests = t.ledger.syncInterests := by
  set t₁ := turn P L (.onSyncEvent amb') t with ht₁
  have hstamped := h.stamped (launch_stamped _ _ _)
  have hfailed : t₁ = { t with timers := { t.timers with syncEventID := none } } :=
    (become_sendSyncInterest L amb' { t with timers := { t.timers with syncEventID := none } }).elim
      (fun hok => absurd hok.1 hsign) fun hfail => hfail.2
  obtain ⟨acts, hpulse⟩ := h'.pulse
  -- no record is created and no reply is due, so nothing beats out of turn
  have hbeat : .beat ∉ acts := by
    have hcount := hpulse.beat
    have hnone : turns'.countP Turn.isCreate = 0 := by
      rw [List.countP_eq_zero]
      intro a ha
      rw [hcreate a ha]
      exact nofun
    have hpending : t₁.pending = 0 := by
      rw [hfailed, pending]
      exact if_pos hreply
    have hsame : t₁.repliesScheduled = t.repliesScheduled := by rw [hfailed]; rfl
    rw [← List.count_eq_zero]
    omega
  have hdue : t₁.heart.due = none := by rw [hfailed]; rfl
  have hsent : t'.sent = t₁.sent := (hpulse.run.silent hdue hbeat).2
  rw [← (h'.stamped (hstamped.turn _)).length_sent, hsent, (hstamped.turn _).length_sent, ← ht₁,
    hfailed]

/-- The ledger waits for its first timer. -/
theorem due_run :
    let P := Sample.peer (Sample.config 1 5 1)
    let L : EventLoop := ⟨5000, 100⟩
    let t₀ := launch P L 0 Sample.ambient Backend.empty ()
    Run P L t₀ [.wait 5000] (turn P L (.wait 5000) t₀) := by
  dsimp only
  obtain ⟨⟨_, hstart, hsync, hreply⟩, _⟩ := late_evaluated
  exact Run.nil.wait_armed hsync hreply (by rw [hstart]; decide) (by decide)

/-- Without its key when the first timer is due a ledger is silent, however long it waits. -/
theorem heart_stops_waiting :
    let P := Sample.peer (Sample.config 1 5 1)
    let L : EventLoop := ⟨5000, 100⟩
    let amb : Ambient := { Sample.ambient with signInterest := .error "no key" }
    let t₀ := launch P L 0 Sample.ambient Backend.empty ()
    let t := turn P L (.wait 5000) t₀
    let t₁ := turn P L (.onSyncEvent amb) t
    (turn P L (.wait 1000000) t₁).ledger.syncInterests = t.ledger.syncInterests := by
  intro P L amb t₀ t t₁
  have hdue : Run P L t₀ [.wait 5000] t := due_run
  have hevaluated : (t₁.timers.syncEventID = none ∧ t₁.timers.replySyncEventID = none) ∧
      t₁.clock = 5000 ∧ t.timers.replySyncEventID = none ∧
      (turn P L (.wait 1000000) t₁).repliesScheduled = t.repliesScheduled := by
    decide +kernel
  obtain ⟨⟨hnone, hnoReply⟩, hclock, hreply₀, hreplies⟩ := hevaluated
  have hrun : Run P L t₁ [.wait 1000000] (turn P L (.wait 1000000) t₁) :=
    Run.nil.wait_unarmed hnone hnoReply (by rw [hclock]; decide)
  have hsign : amb.signInterest ≠ .ok () := by
    intro hsign
    cases hsign
  have hcreate : ∀ a ∈ [Turn.wait 1000000], a.isCreate = false := by
    intro a ha
    rw [List.mem_singleton.1 ha]
    rfl
  exact heart_stops hdue hsign hreply₀ hrun hcreate hreplies

end Runs

end Scheduled

end DLedger
