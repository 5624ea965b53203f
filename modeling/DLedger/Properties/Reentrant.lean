import DLedger.Reentrant.Run
import DLedger.Ledger.Sample

set_option autoImplicit false

/-! # Callbacks that append to the ledger

As long as what a callback appends does no harm to the loops under way, every record that reaches
`confirmWeight` is confirmed exactly once before it leaves, and every entry of the tail has its
packet. Elsewhere neither holds: an append may raise a record that is still to be visited past
`confirmWeight`, and remove it.
-/

namespace DLedger

open Tlv (Bytes Block)

namespace Machine

open LedgerImpl

variable {σ : Type} {P : Peer σ} {m m' : Machine σ} {certManager : σ}

/-- How often a record has been passed to `onRecordConfirmed`. -/
def timesConfirmed (P : Peer σ) (m : Machine σ) (n : Name) : Nat :=
  (m.ledger.confirmations.map fun r => r.getRecordName P.ndn).count n

theorem Inv.timesConfirmed_le (h : Inv P m) (n : Name) : timesConfirmed P m n ≤ 1 := by
  rw [timesConfirmed, h.records.once n]
  split_ifs <;> omega

/-- A heavy record is confirmed, or its turn is to come. -/
theorem Inv.timesConfirmed_eq (h : Inv P m) {n : Name} {t : TailingRecordState}
    (ht : m.ledger.tailRecords[n]? = some t) (hc : P.config.confirmWeight ≤ t.refSet.card) :
    timesConfirmed P m n = 1 ∨ n ∈ m.pending := by
  rcases h.records.confirmed n t ht hc with ⟨d, hd⟩ | ⟨hp, _⟩
  · left
    rw [timesConfirmed, h.records.once n, hd]
    rfl
  · exact Or.inr hp

/-- A reference that is read is valid. -/
theorem Inv.not_dangling (h : Inv P m) (a : Action) :
    Machine.advance P a m ≠ .error .danglingReference := by
  intro hrun
  cases a with
  | call c =>
      simp only [Machine.advance, invoke] at hrun
      cases c with
      | createRecord amb record =>
          simp only [Machine.create] at hrun
          repeat' split at hrun
          all_goals cases hrun
      | onFetchedRecord amb data =>
          simp only [Machine.receive] at hrun
          repeat' split at hrun
          all_goals cases hrun
      | onLedgerSyncRequest amb interest | onRecordRequest amb interest | sendSyncInterest amb =>
          simp only at hrun
          repeat' split at hrun
          all_goals cases hrun
  | resume =>
      simp only [Machine.advance, resume] at hrun
      split at hrun
      · next l below hloops =>
          split at hrun
          · next v hvisit =>
              have hvalid := (h.loops l (by rw [hloops]; exact List.mem_cons_self)).valid v hvisit
              rw [Machine.leaveVisit, if_pos hvalid] at hrun
              cases hrun
          · simp only [Machine.enterVisit] at hrun
            split at hrun
            all_goals cases hrun
          · simp only [Machine.pop] at hrun
            split at hrun
            all_goals cases hrun
      · simp only [Machine.scanNext] at hrun
        repeat' split at hrun
        all_goals cases hrun

/-! ## Runs on fixed inputs -/

/-- The point after some actions, none of which crashes. -/
def follow (P : Peer σ) : List Action → Machine σ → Option (Machine σ)
  | [], m => some m
  | a :: as, m =>
      match advance P a m with
      | .error _ => none
      | .ok m => follow P as m

theorem Reaches.follow {db : Backend} {allowed : Machine σ → Action → Prop} {as : List Action}
    (h : Reaches P db certManager allowed m)
    (hall : ∀ a ∈ as, ∀ m : Machine σ, Admits P m a ∧ allowed m a)
    (hrun : Machine.follow P as m = some m') : Reaches P db certManager allowed m' := by
  induction as generalizing m with
  | nil =>
      cases hrun
      exact h
  | cons a as ih =>
      rw [Machine.follow] at hrun
      obtain ⟨hadmits, ha⟩ := hall a List.mem_cons_self m
      cases hstep : Machine.advance P a m with
      | error crash => rw [hstep] at hrun; cases hrun
      | ok m₁ =>
          rw [hstep] at hrun
          exact ih (h.advance hadmits ha hstep)
            (fun b hb => hall b (List.mem_cons_of_mem a hb)) hrun

theorem follow_append (as bs : List Action) (m : Machine σ) :
    follow P (as ++ bs) m = (follow P as m).bind (follow P bs) := by
  induction as generalizing m with
  | nil => rfl
  | cons a as ih =>
      rw [List.cons_append, follow, follow]
      cases advance P a m with
      | error crash => rfl
      | ok m₁ => exact ih m₁

/-- A callback appends a record, and the run goes on. -/
theorem Reaches.appends {db : Backend} {allowed : Machine σ → Action → Prop} {amb : Ambient}
    {record : Record} {steps : Nat} (h : Reaches P db certManager allowed m)
    (hadmits : Admits P m (.call (.createRecord amb record)))
    (hallowed : allowed m (.call (.createRecord amb record)))
    (hresume : ∀ m, allowed m .resume)
    (hrun : Machine.follow P (.call (.createRecord amb record) :: List.replicate steps .resume) m
      = some m') : Reaches P db certManager allowed m' := by
  rw [Machine.follow] at hrun
  cases hstep : Machine.advance P (.call (.createRecord amb record)) m with
  | error crash => rw [hstep] at hrun; cases hrun
  | ok m₁ =>
      rw [hstep] at hrun
      refine (h.advance hadmits hallowed hstep).follow (fun a ha m => ?_) hrun
      rw [List.eq_of_mem_replicate ha]
      exact ⟨trivial, hresume m⟩

/-- The clock shows a time long after the epoch. -/
def clocked : Ambient := { Sample.ambient with now := 1600000000000000000 }

/-- The small ledger when it has been started. -/
def started (P : Peer σ) (certManager : σ) : Machine σ :=
  ⟨(construct P clocked Backend.empty certManager).1, [], none⟩

/-- A packet is received, and its call goes on for some steps. -/
def receiving (amb : Ambient) (data : Data) (steps : Nat) : List Action :=
  .call (.onFetchedRecord amb data) :: List.replicate steps .resume

/-- What an append would insert is neither stored nor waiting. -/
def appendsUnknown (P : Peer σ) (amb : Ambient) (record : Record) (m : Machine σ) : Bool :=
  match (buildRecord P amb record m.ledger).2 with
  | .ok (.ok data) =>
      (m.ledger.backend.getRecord P.ndn (P.ndn.fullName data)).isNone &&
        m.ledger.syncStack.all fun it => it.1.getRecordName P.ndn != P.ndn.fullName data
  | _ => true

theorem admits_create {amb : Ambient} {record : Record} (hput : Ambient.Writes amb)
    (hfresh : record.Fresh P.ndn) (hunknown : appendsUnknown P amb record m = true) :
    Admits P m (.call (.createRecord amb record)) := by
  refine ⟨hput, hfresh, fun record' data hbuild _ => ?_⟩
  rw [appendsUnknown, hbuild] at hunknown
  simp only [Bool.and_eq_true, Option.isNone_iff_eq_none, List.all_eq_true, bne_iff_ne] at hunknown
  exact hunknown

/-- A record that an application appends. -/
def appended : Record := { uniqueIdentifier := [120], type := .genericRecord }

theorem appended_fresh : appended.Fresh Sample.ndn :=
  ⟨rfl, rfl, by decide, by decide⟩

/-- A random engine that moves the first two candidates to the end. -/
def rotating : Ambient :=
  { clocked with
    shuffle := fun l => l.rotate 2
    shuffle_perm := fun l => List.rotate_perm l 2 }

/-- Receiving packets at fixed times and going on is allowed wherever nothing is asked of it. -/
theorem receiving_allowed {allowed : Machine σ → Action → Prop} {packets : List (Data × Nat)}
    (hallowed : ∀ m data, allowed m (.call (.onFetchedRecord clocked data)))
    (hresume : ∀ m, allowed m .resume) :
    ∀ a ∈ packets.flatMap fun p => receiving clocked p.1 p.2,
      ∀ m : Machine σ, Admits P m a ∧ allowed m a := by
  intro a ha m
  obtain ⟨p, _, ha⟩ := List.mem_flatMap.1 ha
  rcases List.mem_cons.1 ha with rfl | ha
  · exact ⟨fun _ => rfl, hallowed m p.1⟩
  · rw [List.eq_of_mem_replicate ha]
    exact ⟨trivial, hresume m⟩

/-- The test of `Harmless`. -/
def testHarmless (P : Peer σ) (m : Machine σ) (x : Name) : Bool :=
  (m.ledger.tailRecords[x]?).all fun t =>
    (!m.pending.contains x || (t.refSet.card != P.config.confirmWeight &&
      t.refSet.card + 1 != P.config.confirmWeight)) &&
    (!(m.current ++ m.pending).contains x ||
      !(P.removesDeep && decide (P.config.removeWeight ≤ t.refSet.card + 1)))

theorem harmless_of_test {x : Name} (h : testHarmless P m x = true) :
    Harmless P m.current m.pending m.ledger x := by
  intro t ht
  rw [testHarmless, ht, Option.all_some] at h
  simp only [Bool.and_eq_true, Bool.or_eq_true, Bool.not_eq_true', List.contains_eq_mem,
    decide_eq_false_iff_not, bne_iff_ne] at h
  refine ⟨fun hx => h.1.resolve_left fun hnot => hnot hx, fun hx hdeep => ?_⟩
  have htest := h.2.resolve_left fun hnot => hnot hx
  rw [hdeep.1, Bool.true_and, decide_eq_false_iff_not] at htest
  exact htest hdeep.2

/-- What an append marks is harmless. -/
def appendsHarmlessly (P : Peer σ) (amb : Ambient) (record : Record) (m : Machine σ) : Bool :=
  match buildRecord P amb record m.ledger with
  | (record, .ok (.ok data)) =>
      match enterTailing P amb { record with data := some data } true m.ledger with
      | (_, .ok (some names)) => names.all (testHarmless P m)
      | _ => false
  | _ => true

/-- An append is careful where nothing is pending and what its walk marks is harmless. -/
theorem Inv.careful (h : Inv P m) {amb : Ambient} {record : Record}
    (hadmits : Admits P m (.call (.createRecord amb record))) (hpending : m.pending = [])
    (hcheck : appendsHarmlessly P amb record m = true) :
    Careful P m (.call (.createRecord amb record)) := by
  obtain ⟨_, hfresh, hnew⟩ := hadmits
  intro record' data hbuild
  have hbuilt := buildRecord_built hfresh hbuild
  refine ⟨fun x hx => ?_, fun x hx => ?_⟩
  · rw [appendsHarmlessly, hbuild] at hcheck
    dsimp only at hcheck
    split at hcheck
    · next s' names henter =>
        rcases h.records.enterTailing_cases hbuilt.data_eq
          (fun hnone hname => h.records.ready_built hbuilt hnone (hnew _ _ hbuild hnone).1
            (hname rfl)) henter with ⟨hnone, _⟩ | ⟨names', marked, heq, _, hentered⟩
        · cases hnone
        · cases heq
          obtain ⟨_, _, _, hadded⟩ := hentered.added
          have hmem : x ∈ names :=
            (hentered.mem_names x).2 ((hadded.mem_marked x).2 ⟨rfl, hx⟩)
          exact harmless_of_test (List.all_eq_true.1 hcheck x hmem)
    · cases hcheck
  · rw [hpending] at hx
    cases hx

/-! ## Confirmed once -/

/-- **Callbacks may append, where they are careful.** At every point of a run each entry of the tail
has its packet, and a record that has reached `confirmWeight` is confirmed exactly once, at the
latest when the loop comes to it, and before it leaves the tail. -/
theorem append_confirmed (hpos : 1 ≤ P.config.confirmWeight) (hsmall : P.config.SmallWeights)
    (h : Reaches P Backend.empty certManager (Careful P) m) :
    (∀ (n : Name) (t : TailingRecordState), m.ledger.tailRecords[n]? = some t →
      ∃ d, t.record.data = some d ∧ P.ndn.fullName d = n) ∧
    (∀ n, timesConfirmed P m n ≤ 1) ∧
    (∀ (n : Name) (t : TailingRecordState), m.ledger.tailRecords[n]? = some t →
      P.config.confirmWeight ≤ t.refSet.card → timesConfirmed P m n = 1 ∨ n ∈ m.pending) ∧
    (∀ a m', Admits P m a → Careful P m a → advance P a m = .ok m' →
      ∀ (n : Name) (t : TailingRecordState), m.ledger.tailRecords[n]? = some t →
        P.config.confirmWeight ≤ t.refSet.card → m'.ledger.tailRecords[n]? = none →
          timesConfirmed P m n = 1) ∧
    ∀ a, advance P a m ≠ .error .danglingReference := by
  have hinv := h.inv hpos hsmall
  refine ⟨fun n t ht => (hinv.records.sound.named n t ht).exists_data, hinv.timesConfirmed_le,
    fun n t => hinv.timesConfirmed_eq, ?_, hinv.not_dangling⟩
  intro a m' hadmits hcareful hrun n t ht hc hgone
  refine (hinv.timesConfirmed_eq ht hc).resolve_right fun hp => ?_
  obtain ⟨u, hu, _⟩ := (hinv.advance hpos hsmall hadmits hcareful hrun).records.tailing n
    (pending_advance hrun hp)
  rw [hgone] at hu
  cases hu

/-- A packet on the genesis record, up to the callback for the genesis record. -/
def genesisActions : List Action :=
  [(Sample.packet 97 0 [Sample.genesis], 2)].flatMap fun p => receiving clocked p.1 p.2

/-- The callback for the genesis record appends a record on the packet, which confirms the packet in
a loop of its own. -/
theorem append_confirmed_genesis :
    let P := Sample.peer (Sample.config 1 5 1)
    ∃ m m' as, m.inCallback = true ∧
      follow P (.call (.createRecord clocked appended) :: as) m = some m' ∧
      m'.idle = true ∧ timesConfirmed P m' Sample.genesis = 1 ∧
      timesConfirmed P m' (Sample.ndn.fullName (Sample.packet 97 0 [Sample.genesis])) = 1 := by
  intro P
  have hsmall : P.config.SmallWeights := Sample.smallWeights (by decide) (by decide)
  let append : List Action :=
    .call (.createRecord clocked appended) :: List.replicate 10 .resume
  have hstart : Reaches P Backend.empty () (Careful P) (started P ()) :=
    Reaches.start (show Ambient.Writes clocked from fun _ => rfl)
      (Outcome.eq_of_returns (by decide +kernel))
  have hbefore : ((follow P genesisActions (started P ())).any fun m =>
      m.inCallback && m.pending.isEmpty && appendsUnknown P clocked appended m &&
        appendsHarmlessly P clocked appended m) = true := by
    decide +kernel
  have hafter : ((follow P (genesisActions ++ append) (started P ())).any fun m =>
      m.idle && m.pending.isEmpty && ((m.ledger.tailRecords[Sample.genesis]?).any fun t =>
          decide (1 ≤ t.refSet.card)) &&
        (m.ledger.tailRecords[Sample.ndn.fullName (Sample.packet 97 0 [Sample.genesis])]?).any
          fun t => decide (1 ≤ t.refSet.card)) = true := by
    decide +kernel
  -- the two evaluations give the points, the general theorem what holds there
  obtain ⟨m, hm, hcheck⟩ := (Option.any_eq_true _ _).1 hbefore
  rw [follow_append, hm, Option.bind_some] at hafter
  obtain ⟨m', hm', hcheck'⟩ := (Option.any_eq_true _ _).1 hafter
  simp only [Bool.and_eq_true, Option.any_eq_true, List.isEmpty_iff, decide_eq_true_eq]
    at hcheck hcheck'
  obtain ⟨⟨⟨hcallback, hpending⟩, hunknown⟩, hharmless⟩ := hcheck
  obtain ⟨⟨⟨hidle, hpending'⟩, t, ht, hc⟩, u, hu, hcu⟩ := hcheck'
  have hrun : Reaches P Backend.empty () (Careful P) m := hstart.follow
    (receiving_allowed (fun _ _ => trivial) fun _ => trivial) hm
  have hadmits : Admits P m (.call (.createRecord clocked appended)) :=
    admits_create (fun _ => rfl) appended_fresh hunknown
  have hrun' : Reaches P Backend.empty () (Careful P) m' := hrun.appends hadmits
    ((hrun.inv (by decide) hsmall).careful hadmits hpending hharmless) (fun _ => trivial) hm'
  obtain ⟨_, _, hconfirmed, _⟩ := append_confirmed (P := P) (by decide) hsmall hrun'
  refine ⟨m, m', _, hcallback, hm', hidle, ?_, ?_⟩
  · exact (hconfirmed Sample.genesis t ht hc).resolve_right
      (by rw [hpending']; exact List.not_mem_nil)
  · exact (hconfirmed _ u hu hcu).resolve_right (by rw [hpending']; exact List.not_mem_nil)

/-- The four crossing records, up to the callback for the one of producer 97; the first one is
still to be visited then. -/
def crossingActions : List Action :=
  (Sample.crossingPackets.zip [9, 12, 12, 2]).flatMap fun p => receiving clocked p.1 p.2

def firstCrossing : Name := Sample.ndn.fullName (Sample.packet 99 0 [Sample.genesis])

/-- **An append while a record is still to be visited** raises it past `confirmWeight` and removes
it. The loop then makes an entry without a packet under its name, and the record is never
confirmed. The time of that entry is the epoch, so it is evicted at the end of the call, and all
that leads to it is evicted as well. -/
theorem append_breaks_crossing :
    let P := Sample.peer (Sample.config 1 2 2)
    let Run := Reaches P Backend.empty () fun _ _ => True
    (1 ≤ P.config.confirmWeight ∧ ¬ ∀ m, Run m → ∀ (n : Name) (t : TailingRecordState),
      m.ledger.tailRecords[n]? = some t → ∃ d, t.record.data = some d ∧ P.ndn.fullName d = n) ∧
    ∃ m m' as, Run m ∧ follow P as m = some m' ∧ Run m' ∧
      (∃ t, m.ledger.tailRecords[firstCrossing]? = some t ∧
        t.refSet.card = P.config.confirmWeight) ∧
      m'.idle = true ∧ timesConfirmed P m' firstCrossing = 0 ∧
        m'.ledger.tailRecords.isEmpty = true := by
  intro P Run
  let append : ℕ → List Action := fun steps =>
    .call (.createRecord rotating appended) :: List.replicate steps .resume
  have hstart : Run (started P ()) :=
    Reaches.start (show Ambient.Writes clocked from fun _ => rfl)
      (Outcome.eq_of_returns (by decide +kernel))
  have hbefore : ((follow P crossingActions (started P ())).any fun m =>
      appendsUnknown P rotating appended m &&
        (m.ledger.tailRecords[firstCrossing]?).any fun t => t.refSet.card == 2) = true := by
    decide +kernel
  have hwithin : ((follow P (crossingActions ++ append 7) (started P ())).any fun m =>
      (m.ledger.tailRecords[firstCrossing]?).any fun t => t.record.data.isNone) = true := by
    decide +kernel
  have hafter : ((follow P (crossingActions ++ append 15) (started P ())).any fun m =>
      m.idle && timesConfirmed P m firstCrossing == 0 && m.ledger.tailRecords.isEmpty) = true := by
    decide +kernel
  obtain ⟨m, hm, hcheck⟩ := (Option.any_eq_true _ _).1 hbefore
  rw [follow_append, hm, Option.bind_some] at hwithin hafter
  obtain ⟨m₁, hm₁, hcheck₁⟩ := (Option.any_eq_true _ _).1 hwithin
  obtain ⟨m', hm', hcheck'⟩ := (Option.any_eq_true _ _).1 hafter
  simp only [Bool.and_eq_true, Option.any_eq_true, beq_iff_eq, Option.isNone_iff_eq_none]
    at hcheck hcheck₁ hcheck'
  obtain ⟨hunknown, t, ht, hc⟩ := hcheck
  obtain ⟨u, hu, hnone⟩ := hcheck₁
  obtain ⟨⟨hidle, hnever⟩, hempty⟩ := hcheck'
  have hrun : Run m := hstart.follow
    (receiving_allowed (fun _ _ => trivial) fun _ => trivial) hm
  have hadmits := admits_create (fun _ => rfl) appended_fresh hunknown
  have hrun₁ : Run m₁ := hrun.appends hadmits trivial (fun _ => trivial) hm₁
  have hrun' : Run m' := hrun.appends hadmits trivial (fun _ => trivial) hm'
  refine ⟨⟨by decide, fun hall => ?_⟩, m, m', append 15, hrun, hm', hrun', ⟨t, ht, hc⟩, hidle,
    hnever, hempty⟩
  obtain ⟨d, hd, _⟩ := hall m₁ hrun₁ firstCrossing u hu
  rw [hnone] at hd
  cases hd

end Machine

end DLedger
