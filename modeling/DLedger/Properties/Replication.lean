import DLedger.Ledger.Create
import DLedger.Ledger.Endorsers
import DLedger.Properties.Authenticity

set_option autoImplicit false

/-! # Confirmed records are held by the peers that they count

A record is confirmed when it counts `confirmWeight` producers. Each of them that is a peer of the
network has signed a record from which the confirmed one is reached, and a peer points only to what
it has: so the peer has inserted the confirmed record, and all on the way to it, in its own ledger.
-/

namespace DLedger

open LedgerImpl

/-- A record was inserted. -/
def InsertedAt (log : List (Record × Bool)) (r : Record) : Prop := ∃ e, (r, e) ∈ log

/-- **What is reached in one log from a name is in the other log too**, if the name is and full names
do not collide. -/
theorem insertedAt_of_path {ndn : Ndn} {log log' : List (Record × Bool)} (h : Logged ndn log)
    (h' : Logged ndn log')
    (hinj : Set.InjOn ndn.fullName (insertedData log ∪ insertedData log')) {n : Name} {q : Record}
    (hn : ∃ y, InsertedAt log' y ∧ y.getRecordName ndn = n) (hq : InsertedAt log q)
    (hpath : Relation.ReflTransGen (PointsTo ndn log) n (q.getRecordName ndn)) :
    InsertedAt log' q := by
  -- of one name there is one record in both logs
  have hsame : ∀ x y, InsertedAt log x → InsertedAt log' y →
      x.getRecordName ndn = y.getRecordName ndn → x = y := by
    rintro x y ⟨e, hx⟩ ⟨e', hy⟩ heq
    obtain ⟨n, hn⟩ := h.named _ hx
    obtain ⟨m, hm⟩ := h'.named _ hy
    rw [hn.getRecordName, hm.getRecordName] at heq
    subst heq
    obtain ⟨d, hd, hname⟩ := hn.exists_data
    obtain ⟨d', hd', hname'⟩ := hm.exists_data
    have hdd : d = d' := hinj (Or.inl ⟨_, hx, hd⟩) (Or.inr ⟨_, hy, hd'⟩) (hname.trans hname'.symm)
    subst hdd
    have hdec := (hn.ofData_eq hd).1
    rw [(hm.ofData_eq hd').1] at hdec
    exact (Except.ok.inj hdec).symm
  have hreach : ∀ m, Relation.ReflTransGen (PointsTo ndn log) n m →
      ∃ y, InsertedAt log' y ∧ y.getRecordName ndn = m := by
    intro m hm
    induction hm with
    | refl => exact hn
    | @tail c p _ hstep ih =>
        obtain ⟨y, hy, rfl⟩ := ih
        obtain ⟨ins, hins, hname, hp⟩ := hstep
        have heq : ins.1 = y := hsame ins.1 y ⟨ins.2, hins⟩ hy hname
        obtain ⟨e, hy⟩ := hy
        obtain ⟨target, htarget, hname'⟩ := h'.target _ p ⟨_, hy, rfl, heq ▸ hp⟩
        exact ⟨target.1, ⟨target.2, htarget⟩, hname'⟩
  obtain ⟨y, hy, hname⟩ := hreach _ hpath
  rw [hsame q y hq hy hname.symm]
  exact hy

namespace Network

variable {ι : Type} {N : Network ι} {g : ι → Party}

/-- All packets that the ledgers of the network have inserted. -/
def insertedData (g : ι → Party) : Set Data :=
  {d | ∃ i, d ∈ DLedger.insertedData (g i).ledger.insertions}

/-- Where equal names come with equal packets, full names do not collide. -/
theorem injOn_insertedData (h : ∀ i j, ∀ ins ∈ (g i).ledger.insertions,
    ∀ ins' ∈ (g j).ledger.insertions,
    ins.1.getRecordName N.ndn = ins'.1.getRecordName N.ndn → ins.1.data = ins'.1.data) :
    Set.InjOn N.ndn.fullName (insertedData g) := by
  rintro d ⟨i, ins, hins, hd⟩ d' ⟨j, ins', hins', hd'⟩ heq
  have hdata := h i j ins hins ins' hins' (by
    rw [Record.getRecordName, Record.getRecordName, hd, hd']
    exact heq)
  rw [hd, hd'] at hdata
  exact Option.some.inj hdata

/-- No call takes an insertion back. -/
theorem call_insertions_subset {σ : Type} {P : Peer σ} (c : Call) (s : LedgerImpl σ) :
    s.insertions ⊆ (call P c s).1.insertions := by
  intro ins hins
  have hframe : CallFrame P (fun s : LedgerImpl σ => ins ∈ s.insertions) (fun _ => True)
      (fun _ => True) :=
    { insertions_frame fun log => ins ∈ log with
      insert := fun s record endorseVerified _ h => List.mem_cons_of_mem _ h
      quiet := fun s e he h => by
        rw [emit_insertions, he.1]
        exact h }
  exact (Keeps.call hframe ⟨hins, fun _ _ _ => trivial, fun _ _ => trivial⟩ permits_of_trivial).holds

/-- What a peer signs in a call that returns is in its log after the call. -/
theorem built_inserted {σ : Type} {P : Peer σ} {c : Call} {s : LedgerImpl σ} (hx : Exact P s)
    (hinv : LedgerInv P s) (hadmissible : Admissible P s c) (hreturns : CallReturns P s c)
    {d : Data} (hd : d ∈ c.built P s) :
    ∃ ins ∈ (call P c s).1.insertions, ins.1.getRecordName P.ndn = P.ndn.fullName d := by
  obtain ⟨amb, record, record', rfl, hbuild⟩ := Call.mem_built.1 hd
  obtain ⟨_, hfresh, hnew⟩ := hadmissible
  have hbuilt := buildRecord_built hfresh hbuild
  rcases hcreate : createRecord P amb record s with ⟨s', built, f | code⟩
  · rw [CallReturns, call, hcreate] at hreturns
    cases hreturns
  rcases createRecord_ok hcreate with ⟨herror, _⟩ | ⟨_, _, s₁, hbuild', rfl, hadd, rfl, _⟩
  · rw [herror] at hbuild
    cases hbuild
  rw [hbuild] at hbuild'
  cases hbuild'
  rw [call, hcreate, (sendSyncInterest_sameRecords s₁).insertions]
  cases htail : s.tailRecords[P.ndn.fullName d]? with
  | some t =>
      -- nothing is added, but the tailing record was
      rw [addToTailingRecord_of_tail rfl htail] at hadd
      cases hadd
      exact ⟨_, hx.tail _ t htail, (hinv.tail.sound.named _ t htail).getRecordName⟩
  | none =>
      have hheld := hinv.ledgerHeld
      obtain ⟨hready, _, marked, names, mid, hadded⟩ := added_of_ok hheld.tail.sound rfl htail
        (fun hname => hheld.ready_built hbuilt htail (hnew _ _ hbuild htail).1 (hname rfl))
        (fun htype => absurd htype hbuilt.type_ne) hadd
      refine ⟨({ record' with data := some d }, true), ?_, hready.named.getRecordName⟩
      rw [hadded.insertions_eq]
      exact List.mem_cons_self

variable [DecidableEq ι]

/-- **A peer has inserted all that it has signed**, in a regular run. -/
theorem Reachable.created_inserted (hpos : ∀ i, 1 ≤ (N.config i).confirmWeight)
    (hsmall : ∀ i, (N.config i).SmallWeights) (h : N.Reachable N.Regular g) (i : ι) {d : Data}
    (hd : d ∈ (g i).created) :
    ∃ y, InsertedAt (g i).ledger.insertions y ∧ y.getRecordName N.ndn = N.ndn.fullName d := by
  have hrun : ∀ i, (∃ m, LedgerImpl.Reachable (N.peer i) Backend.empty m (g i).ledger) ∧
      ∀ d ∈ (g i).created, ∃ ins ∈ (g i).ledger.insertions,
        ins.1.getRecordName N.ndn = N.ndn.fullName d := by
    refine h.project (R := fun i p => (∃ m,
      LedgerImpl.Reachable (N.peer i) Backend.empty m p.ledger) ∧ ∀ d ∈ p.created,
        ∃ ins ∈ p.ledger.insertions, ins.1.getRecordName N.ndn = N.ndn.fullName d) ?_ ?_
    · rintro i p ⟨_, m, amb, _, hput, hstart, hnone⟩
      refine ⟨⟨m, LedgerImpl.Reachable.start hput hstart⟩, fun d hd => ?_⟩
      rw [hnone] at hd
      cases hd
    · rintro g i c ⟨⟨m, hi⟩, hcreated⟩ hc
      refine ⟨⟨m, hi.step ⟨c, hc.2.1, Outcome.eq_of_returns hc.2.2⟩⟩, fun d hd => ?_⟩
      rcases List.mem_append.1 hd with hd | hd
      · exact built_inserted (hi.exact (hpos i) (hsmall i)) (hi.inv (hpos i) (hsmall i)) hc.2.1
          hc.2.2 hd
      · obtain ⟨ins, hins, hname⟩ := hcreated d hd
        exact ⟨ins, call_insertions_subset c _ hins, hname⟩
  obtain ⟨ins, hins, hname⟩ := (hrun i).2 d hd
  exact ⟨ins.1, ⟨ins.2, hins⟩, hname⟩

/-- **A confirmed record is in the ledger of every peer that it counts.** It counts `confirmWeight`
producers, and each of them that is a peer of the network has inserted it. -/
theorem confirmed_replicated (hN : N.PublicKeys) (hpos : ∀ i, 1 ≤ (N.config i).confirmWeight)
    (hsmall : ∀ i, (N.config i).SmallWeights) (h : N.Reachable N.Regular g)
    (hinj : Set.InjOn N.ndn.fullName (insertedData g)) (i : ι) (r : Record)
    (hr : r ∈ (g i).ledger.confirmations) :
    ∃ A : Finset Name, A.card = (N.config i).confirmWeight ∧
      (∀ a ∈ A, EndorsedBy N.ndn (g i).ledger.insertions (r.getRecordName N.ndn) a) ∧
      ∀ j, (N.config j).peerPrefix ∈ A → InsertedAt (g j).ledger.insertions r := by
  obtain ⟨m, hi⟩ := h.ledger i
  have hendorsers := hi.endorsers (hpos i) (hsmall i)
  have hown : Set.InjOn N.ndn.fullName (DLedger.insertedData (g i).ledger.insertions) :=
    fun d hd d' hd' heq => hinj ⟨i, hd⟩ ⟨i, hd'⟩ heq
  obtain ⟨hinserted, A, hcard, hA⟩ := hendorsers.confirmed hown r hr
  refine ⟨A, hcard, hA, fun j hj => ?_⟩
  obtain ⟨r', hr', hpath, hproducer, _⟩ := hA _ hj
  have hlogged := (hi.exact (hpos i) (hsmall i)).logged
  obtain ⟨n, hn⟩ := hlogged.named _ hr'
  obtain ⟨d, hd, rfl⟩ := hn.exists_data
  rw [hn.getRecordName] at hpath hproducer
  -- the endorsing record is in the name of the peer, so the peer has signed it
  have hcheck : RecordName.check (N.ndn.fullName d) = .ok () := by
    have hcheck := hendorsers.checked r' hr'
    rwa [hn.getRecordName] at hcheck
  have hname := (RecordName.sameReading_fullName hcheck).producerPrefix
  have hcreated : d ∈ (g j).created :=
    (h.honest.sound hN i).holds.inserted _ hr' d hd j (hname.symm.trans hproducer)
  obtain ⟨m', hj'⟩ := h.ledger j
  refine insertedAt_of_path hlogged (hj'.exact (hpos j) (hsmall j)).logged
    (hinj.mono ?_) (h.created_inserted hpos hsmall j hcreated) hinserted hpath.to_reflTransGen
  rintro x (hx | hx)
  · exact ⟨i, hx⟩
  · exact ⟨j, hx⟩

/-- The record of the first peer counts the second one, which holds it. -/
theorem confirmed_replicated_exchange :
    ∃ r ∈ (Sample.exchange false).ledger.confirmations,
      r.data = some (Sample.createdPacket false Sample.freshRecord Sample.networkStart) ∧
      ∃ A : Finset Name, A.card = 1 ∧
        (∀ a ∈ A, EndorsedBy Sample.keyNdn (Sample.exchange false).ledger.insertions
          (r.getRecordName Sample.keyNdn) a) ∧
        ∀ j, (Sample.network.config j).peerPrefix ∈ A →
          InsertedAt (Sample.exchange j).ledger.insertions r := by
  have hinj : Set.InjOn Sample.network.ndn.fullName (insertedData Sample.exchange) :=
    injOn_insertedData (by decide +kernel)
  have hconfirmed : ∃ r ∈ (Sample.exchange false).ledger.confirmations,
      r.data = some (Sample.createdPacket false Sample.freshRecord Sample.networkStart) := by
    decide +kernel
  have hsmall : ∀ i, (Sample.network.config i).SmallWeights := fun i =>
    ⟨show 5 + 1 < 2 ^ 31 by decide, show 1 < 2 ^ 31 by decide⟩
  obtain ⟨r, hr, hdata⟩ := hconfirmed
  exact ⟨r, hr, hdata, confirmed_replicated Sample.publicKeys_network (by decide)
    hsmall
    Sample.reachable_exchange hinj false r hr⟩

end Network

end DLedger
