import DLedger.Delivery.Arrivals
import DLedger.Lib.Pull
import DLedger.Properties.Fetching

set_option autoImplicit false

/-! # A ledger pulls records

A ledger asks for what it hears of, in sync Interests and as the ancestors of a received record, and
its Interests are answered one after another, between other calls. The setting is that of
`Arriving`: the packets are those of a finite set, and no timeout elapses. `Pulling` is the
invariant; the ledger then simulates the pulling of a graph.
-/

namespace DLedger

open Tlv (Bytes Block)

namespace LedgerImpl

variable {σ : Type} {P : Peer σ} {amb : Ambient} {s₀ s s' : LedgerImpl σ} {S : Finset Data}
  {times : List Int}

/-! ## The run of a ledger that pulls -/

/-- A ledger and the Interests for records that it has expressed and that are not answered. -/
structure Puller (σ : Type) where
  ledger : LedgerImpl σ
  outstanding : List Name

namespace Puller

variable (P)

/-- The ledger makes a call, to which no Interest is answered. -/
def call (c : Call) (p : Puller σ) : Puller σ where
  ledger := (LedgerImpl.call P c p.ledger).1
  outstanding := expressed p.ledger (LedgerImpl.call P c p.ledger).1 ++ p.outstanding

/-- An Interest is answered with the packet of that full name. -/
def answer (amb : Ambient) (data : Data) (p : Puller σ) : Puller σ where
  ledger := (onFetchedRecord P amb data p.ledger).1
  outstanding := expressed p.ledger (onFetchedRecord P amb data p.ledger).1
    ++ p.outstanding.erase (P.ndn.fullName data)

end Puller

/-- Packets that a ledger can pull: their names end with no digest before the full name is made, and
since full names are digests, no record is its own ancestor. -/
structure Pullable (P : Peer σ) (certManager : σ) (S : Finset Data) : Prop
    extends Endorsable P certManager S where
  names : ∀ d ∈ S, RecordName.hasImplicitDigest d.name = false
  acyclic : Dag.Acyclic (Parent P.ndn S)

/-- The other calls: a generic record is created whose packet is one of the set, or Interests come in
or are sent. -/
def Undisturbed (P : Peer σ) (S : Finset Data) (times : List Int) (s : LedgerImpl σ) :
    Call → Prop
  | .createRecord amb record => record.type = .genericRecord ∧ Ambient.Writes amb ∧
      amb.now ∈ times ∧ DigestNames P s (.createRecord amb record) ∧
      (∀ built data, buildRecord P amb record s = (built, .ok (.ok data)) → data ∈ S) ∧
      CallReturns P s (.createRecord amb record)
  | .onFetchedRecord _ _ => False
  | _ => True

/-- An Interest for a packet of the set is answered. -/
def AnswerStep (P : Peer σ) (s₀ : LedgerImpl σ) (S : Finset Data) (times : List Int)
    (p q : Puller σ) : Prop :=
  ∃ amb data, Delivery P s₀ S (fun _ => true) times amb data ∧
    P.ndn.fullName data ∈ p.outstanding ∧ q = p.answer P amb data

inductive PullStep (P : Peer σ) (s₀ : LedgerImpl σ) (S : Finset Data) (times : List Int)
    (p : Puller σ) : Puller σ → Prop where
  | call {c : Call} (hc : Undisturbed P S times p.ledger c) : PullStep P s₀ S times p (p.call P c)
  | answer {q : Puller σ} (h : AnswerStep P s₀ S times p q) : PullStep P s₀ S times p q

abbrev PullRun (P : Peer σ) (s₀ : LedgerImpl σ) (S : Finset Data) (times : List Int) :
    Puller σ → Puller σ → Prop :=
  Relation.ReflTransGen (PullStep P s₀ S times)

/-! ## Parents -/

/-- A pointer of the record of a packet of the set. -/
theorem parent_of_pointer {d : Data} {record : Record} (hd : d ∈ S)
    (hdec : Record.ofData P.ndn d = .ok record) {p : Name} (hp : p ∈ record.recordPointers) :
    Parent P.ndn S (P.ndn.fullName d) p :=
  ⟨d, hd, rfl, record, hdec, hp⟩

/-- Full names of the set differ, so the pointers of a name are those of its packet. -/
theorem Generics.pointer_of_parent (hS : Generics P.ndn S) {d : Data} {record : Record}
    (hd : d ∈ S) (hdec : Record.ofData P.ndn d = .ok record) {p : Name}
    (hp : Parent P.ndn S (P.ndn.fullName d) p) : p ∈ record.recordPointers := by
  obtain ⟨d', hd', hname, record', hdec', hp⟩ := hp
  rw [hS.fullName_injOn hd' hd hname, hdec] at hdec'
  cases hdec'
  exact hp

/-- The full name of a packet of the set is the name of a generic record. -/
theorem Pullable.check_fullName {certManager : σ} (hS : Pullable P certManager S) {d : Data}
    {record : Record} (hd : d ∈ S) (hdec : Record.ofData P.ndn d = .ok record) :
    RecordName.check (P.ndn.fullName d) = .ok () ∧
      RecordName.getRecordType (P.ndn.fullName d) = .genericRecord := by
  have hcheck : RecordName.check (P.ndn.fullName d) = .ok () :=
    RecordName.check_concat _ (Record.ofData_eq_ok hdec).1 (hS.names d hd)
  exact ⟨hcheck, (RecordName.sameReading_fullName hcheck).recordType.trans (hS.generic d hd)⟩

/-- **The parents of a tailing record are in the tail.** -/
theorem Arriving.parent_tail (ha : Arriving P s₀ S times s) (hgenesis : OnlyGenesis s₀)
    (hS : Pullable P s₀.certManager S) (hs : LedgerInv P s) {n p : Name}
    {t : TailingRecordState} (ht : s.tailRecords[n]? = some t) (hp : Parent P.ndn S n p) :
    ∃ u, s.tailRecords[p]? = some u := by
  obtain ⟨d, hd, rfl, record, hdec, hp⟩ := hp
  obtain ⟨hcheck, htype⟩ := hS.check_fullName hd hdec
  have hnamed := hs.tail.sound.named _ t ht
  have hpointer : p ∈ t.record.recordPointers := by
    rcases (ha.entry _ t ht).source with ⟨u, hu, heq⟩ | ⟨d', hd', hdata⟩
    · -- a genesis record has another type
      have hgen := hnamed.type_eq hcheck
      rw [heq, (hgenesis _ u hu).1, htype] at hgen
      cases hgen
    · obtain ⟨hdec', hname⟩ := hnamed.ofData_eq hdata
      rw [hS.fullName_injOn hd' hd hname, hdec] at hdec'
      cases hdec'
      exact hp
  rcases hs.tail.tailHeld.held _ t ht p hpointer with htail | ⟨d', hstored⟩
  · exact htail
  · exact ha.stored p d' hstored

/-! ## A state between two calls -/

/-- What holds of the ledger between any two calls. -/
structure Steady (P : Peer σ) (s₀ : LedgerImpl σ) (S : Finset Data) (times : List Int)
    (s : LedgerImpl σ) : Prop where
  arriving : Arriving P s₀ S times s
  healthy : Healthy P s
  core : LedgerCore P s
  quiescent : Quiescent P s

/-- What is sent does not matter. -/
theorem Steady.onlySends {events : List Event} (hs : Steady P s₀ S times s)
    (h : OnlySends P s s' events) :
    Steady P s₀ S times s' ∧ ∀ n, Known P s n → Known P s' n := by
  have hsame := h.sameRecords
  have hquiescent := hs.quiescent.onlySends h
  obtain ⟨rfl, _, _⟩ := h
  have ha := hs.arriving
  have hcore := hs.core.withLog (events ++ s.log)
  refine ⟨⟨⟨ha.certManager, ha.base, ha.entry, ha.stored, ?_, ha.waiting⟩,
    ⟨⟨hs.healthy.inv.tail.congr rfl rfl, hcore.stack⟩, hs.healthy.exact.congr hsame,
      hs.healthy.database.congr hsame⟩, hcore, hquiescent⟩, fun n hn => hn⟩
  rw [hsame.insertions]
  exact ha.inserted

section Steps

variable (hpos : 1 ≤ P.config.confirmWeight) (hsmall : P.config.SmallWeights)
  (hgenesis : OnlyGenesis s₀) (hS : Pullable P s₀.certManager S) (htimely : Timely P.config times)
include hpos hsmall hgenesis hS htimely

/-- A record of the set that is created. Its pointers are tailing records, so it arrives at once. -/
theorem Steady.created (hs : Steady P s₀ S times s) {record : Record}
    (hc : Undisturbed P S times s (.createRecord amb record))
    (hrun : LedgerImpl.call P (.createRecord amb record) s = (s', .ok ())) :
    Steady P s₀ S times s' ∧ ∀ n, Known P s n → Known P s' n := by
  obtain ⟨_, hput, htime, hdigest, hmem, _⟩ := hc
  rcases createRecord_cases hrun with ⟨events, h⟩ | ⟨built, data, s₁, events, hbuild, hfresh, hadd, h⟩
  · exact hs.onlySends h
  have hbuilt := buildRecord_built hdigest.1 hbuild
  have hnew := hdigest.createsNew.2 built data hbuild
  rcases hs.healthy.inv.ledgerHeld.inserted_built hbuilt hnew hadd with
    rfl | ⟨marked, names, mid, _, hinserted⟩
  · exact hs.onlySends h
  have harrives : Arrives P amb s₀ S times { built with data := some data } (P.ndn.fullName data)
      s s₁ marked names mid := by
    refine ⟨hinserted, hS.toEndorsable, htimely, htime,
      ⟨data, hmem built data hbuild, rfl, hbuilt.data_eq⟩, fun p hp => ?_⟩
    obtain ⟨t, ht, _⟩ := hbuilt.pointer p hp
    exact ⟨t, ht⟩
  have hmove : Move P amb s s₁ := Move.create hbuilt hnew hadd
  have hhealthy : Healthy P s₁ :=
    ⟨hs.healthy.inv.move hpos hsmall hput hmove,
      hs.healthy.exact.inserted hs.healthy.inv.tail hs.healthy.database hinserted,
      hs.healthy.database.inserted hpos hsmall hput hs.healthy.inv.tail hinserted⟩
  -- nothing waits for the new record, whose name is a digest
  have hquiescent : Quiescent P s₁ := by
    obtain ⟨_, _, _, hadded⟩ := hs.core.tail.addition_built hbuilt hfresh hadd
    exact hs.quiescent.addition hs.core.tail hadded (hdigest.2 built data hbuild hfresh).2
  have hs₁ : Steady P s₀ S times s₁ :=
    ⟨harrives.arriving hs.arriving hsmall hgenesis, hhealthy, hs.core.move hmove, hquiescent⟩
  obtain ⟨hs', hknown⟩ := hs₁.onlySends h
  refine ⟨hs', fun n hn => hknown n ?_⟩
  rcases hn with ⟨t, ht⟩ | ⟨it, hit, hname⟩
  · obtain ⟨u, hu, _⟩ := harrives.stays_of_tail hs.arriving hsmall ht
    exact Or.inl ⟨u, hu⟩
  · refine Or.inr ⟨it, ?_, hname⟩
    rw [harrives.syncStack]
    exact hit

/-- **The other calls**, also those that end with an exception. -/
theorem Steady.call (hs : Steady P s₀ S times s) {c : Call} (hc : Undisturbed P S times s c) :
    Steady P s₀ S times (LedgerImpl.call P c s).1 ∧
      ∀ n, Known P s n → Known P (LedgerImpl.call P c s).1 n := by
  rcases call_cases (P := P) c s with ⟨amb, record, rfl⟩ | ⟨amb, data, rfl⟩ | ⟨events, h⟩
  · exact hs.created hpos hsmall hgenesis hS htimely hc (Outcome.eq_of_returns hc.2.2.2.2.2)
  · exact hc.elim
  · exact hs.onlySends h

/-- **A received packet**: the call returns, and the packet is known from then on. -/
theorem Steady.received (hs : Steady P s₀ S times s) {data : Data}
    (hd : Delivery P s₀ S (fun _ => true) times amb data) :
    (Steady P s₀ S times (onFetchedRecord P amb data s).1 ∧
      ∀ n, Known P s n → Known P (onFetchedRecord P amb data s).1 n) ∧
      Known P (onFetchedRecord P amb data s).1 (P.ndn.fullName data) := by
  have hreturns := hs.arriving.onFetchedRecord_returns hpos hsmall hgenesis hS.toEndorsable htimely
    hS.names hd hs.healthy
  have hrun : onFetchedRecord P amb data s = ((onFetchedRecord P amb data s).1, .ok ()) :=
    Outcome.eq_of_returns hreturns
  obtain ⟨ha, hhealthy, hknown, hnew⟩ :=
    hs.arriving.onFetchedRecord hpos hsmall hgenesis hS.toEndorsable htimely hd hs.healthy hrun
  have hmoves : ReceiveMoves P amb (fun _ => True) s (onFetchedRecord P amb data s).1 :=
    onFetchedRecord_moves trivial hrun
  refine ⟨⟨⟨ha, hhealthy, hs.core.moves hmoves.moves, ?_⟩, hknown⟩, hnew⟩
  refine onFetchedRecord_quiescent (fun record hdec _ htype => ?_) hs.quiescent hrun
  rw [(Record.ofData_eq_ok hdec).2.2.1, hS.generic data hd.mem] at htype
  cases htype

end Steps

/-! ## The ledger simulates the pulling of a graph -/

/-- What is known to a ledger, with its outstanding Interests. -/
def Puller.view (P : Peer σ) (p : Puller σ) : Pull.State Name where
  known := {n | Known P p.ledger n}
  outstanding := p.outstanding

/-- What waits is a record of the set, and its parents are what it waits for. -/
theorem Steady.waiting_parent (hS : Pullable P s₀.certManager S) (hs : Steady P s₀ S times s)
    {it : Record × Int} (hit : it ∈ s.syncStack) {p : Name} :
    Parent P.ndn S (it.1.getRecordName P.ndn) p ↔ p ∈ it.1.recordPointers := by
  obtain ⟨d, hd, _, hdec, _⟩ := hs.arriving.waits_for hS.toEndorsable hs.healthy.inv hit
  rw [Record.getRecordName_of_ofData hdec]
  exact ⟨hS.pointer_of_parent hd hdec, parent_of_pointer hd hdec⟩

/-- **A call that asks for what is unseen is a step.** -/
theorem Steady.pullStep (hgenesis : OnlyGenesis s₀) (hS : Pullable P s₀.certManager S)
    (hs : Steady P s₀ S times s) (hs' : Steady P s₀ S times s')
    (hknown : ∀ n, Known P s n → Known P s' n) (hasks : Asks P s s') {outstanding rest : List Name}
    (hrest : ∀ n ∈ outstanding, Known P s' n ∨ n ∈ rest) :
    Pull.Step (Parent P.ndn S) (Puller.view P ⟨s, outstanding⟩)
      (Puller.view P ⟨s', expressed s s' ++ rest⟩) := by
  obtain ⟨new, hnew, _, hstack⟩ := hasks
  rw [expressed_eq hnew]
  refine ⟨hknown, fun n hn => (hrest n hn).imp_right (List.mem_append_right new),
    fun x hx hnot p hp => ?_⟩
  rcases hx with ⟨t, ht⟩ | ⟨it, hit, rfl⟩
  · exact Or.inl (Or.inl (hs'.arriving.parent_tail hgenesis hS hs'.healthy.inv ht hp))
  -- the record has come to wait in this call, so its ancestors are seen or asked for
  rcases hstack it hit with ⟨it', hit', heq⟩ | hfetch
  · exact absurd (Or.inr ⟨it', hit', by rw [heq]⟩) hnot
  · have hpointer := (hs'.waiting_parent hS hit).1 hp
    rcases hfetch p (List.mem_append_left _ hpointer) with hseen | hmem
    · exact Or.inl (hknown p (Or.inl (hs.arriving.seenRecord_iff.1 hseen)))
    · exact Or.inr (List.mem_append_left _ hmem)

/-- A record that passes the syntax check has the number of pointers that it should. -/
theorem pointers_length_of_checked (hnum : P.config.precedingRecordNum < 2 ^ 31) {data : Data}
    {record : Record} (hdec : Record.ofData P.ndn data = .ok record)
    (h : checkSyntaxValidityOfRecord P amb data s = .ok true) :
    record.recordPointers.length = P.config.precedingRecordNum := by
  have hcount : ofInt (toInt P.config.precedingRecordNum) = P.config.precedingRecordNum := by
    rw [toInt_of_lt hnum, ofInt_natCast (lt_trans hnum (by decide))]
  by_contra hne
  unfold checkSyntaxValidityOfRecord parseRecord at h
  simp [hdec, bind, Except.bind, Record.checkPointerCount, hcount, hne] at h

/-- **What a received packet makes the ledger ask for**: nothing when it is known, else the unseen
ones among its pointers. -/
theorem expressed_received (hS : Pullable P s₀.certManager S) {data : Data}
    (hd : Delivery P s₀ S (fun _ => true) times amb data) :
    expressed s (onFetchedRecord P amb data s).1 = [] ∨
      ∃ record, Record.ofData P.ndn data = .ok record ∧
        checkSyntaxValidityOfRecord P amb data s = .ok true ∧
        ¬ Known P s (P.ndn.fullName data) ∧
        expressed s (onFetchedRecord P amb data s).1
          = (record.recordPointers.filter fun n => !s.seenRecord P n).reverse := by
  rcases onFetchedRecord_cases P amb data s with hsame | ⟨record, hr⟩
  · left
    have hnone : s.fetched = [] ++ s.fetched := rfl
    rw [hsame]
    exact expressed_eq hnone
  refine Or.inr ⟨record, hr.decoded, hr.checked, ?_, ?_⟩
  · rintro (⟨t, ht⟩ | ⟨it, hit, hname⟩)
    · have hseen : s.seenRecord P (P.ndn.fullName data) = true := seenRecord_iff.2 (Or.inl ⟨t, ht⟩)
      rw [hr.unseen] at hseen
      cases hseen
    · exact hr.unstacked it hit hname
  have hfetched : (onFetchedRecord P amb data s).1.fetched
      = ((ancestorNames P.ndn record).filter fun n => !s.seenRecord P n).reverse ++ s.fetched := by
    rw [← received_fetched amb.now record s, hr.onFetchedRecord_eq]
    split_ifs
    · exact (Keeps.rescanStack (fetched_frame _ _) _ none
        (AsksNothing.refl (LedgerImpl.received P amb.now record s))).holds
    · rfl
  have htype := (Record.ofData_eq_ok hr.decoded).2.2.1.trans (hS.generic data hd.mem)
  have hprev : prevCertNames P.ndn record = [] := if_neg (by rw [htype]; decide)
  rw [expressed_eq hfetched, ancestorNames, hprev, List.append_nil]

/-! ## Runs -/

/-- A ledger that pulls: what it has asked for, and what the records that it knows point to, is
known or outstanding. -/
structure Pulling (P : Peer σ) (s₀ : LedgerImpl σ) (S : Finset Data) (times : List Int)
    (p : Puller σ) : Prop where
  steady : Steady P s₀ S times p.ledger
  closed : Pull.Closed (Parent P.ndn S) (p.view P)
  asked : ∀ n ∈ p.ledger.fetched, (p.view P).Reached n

/-- What a call asks for is outstanding after it. -/
theorem Asks.mem_expressed (h : Asks P s s') (rest : List Name) :
    ∀ n ∈ s'.fetched, n ∈ s.fetched ∨ n ∈ expressed s s' ++ rest := by
  obtain ⟨new, hnew, _⟩ := h
  intro n hn
  rw [expressed_eq hnew]
  rw [hnew] at hn
  rcases List.mem_append.1 hn with hn | hn
  · exact Or.inr (List.mem_append_left _ hn)
  · exact Or.inl hn

/-- The parents of the set are of the set, or the ledger starts with them. -/
def ParentClosed (P : Peer σ) (s₀ : LedgerImpl σ) (S : Finset Data) : Prop :=
  ∀ n p, Parent P.ndn S n p → p ∈ P.ndn.fullName '' S ∨ ∃ t, s₀.tailRecords[p]? = some t

/-- An answer makes the ledger ask for packets of the set only. -/
theorem AnswerStep.outstanding_subset (hS : Pullable P s₀.certManager S)
    (hclosed : ParentClosed P s₀ S) {p q : Puller σ} (hp : Pulling P s₀ S times p)
    (h : AnswerStep P s₀ S times p q) (hout : ∀ n ∈ p.outstanding, n ∈ P.ndn.fullName '' S) :
    ∀ n ∈ q.outstanding, n ∈ P.ndn.fullName '' S := by
  obtain ⟨amb, data, hd, _, rfl⟩ := h
  intro n hn
  rcases List.mem_append.1 hn with hn | hn
  · rcases expressed_received (s := p.ledger) hS hd with hnone | ⟨record, hdec, _, _, heq⟩
    · rw [hnone] at hn
      exact absurd hn List.not_mem_nil
    rw [heq, List.mem_reverse, List.mem_filter, Bool.not_eq_true'] at hn
    rcases hclosed _ n (parent_of_pointer hd.mem hdec hn.1) with hmem | ⟨t, ht⟩
    · exact hmem
    · -- what the ledger has started with is seen
      have hseen := hp.steady.arriving.seenRecord_iff.2 (hp.steady.arriving.base n t ht)
      rw [hn.2] at hseen
      cases hseen
  · exact hout n (List.mem_of_mem_erase hn)

section Runs

variable (hpos : 1 ≤ P.config.confirmWeight) (hsmall : P.config.SmallWeights)
  (hgenesis : OnlyGenesis s₀) (hS : Pullable P s₀.certManager S) (htimely : Timely P.config times)
include hpos hsmall hgenesis hS htimely

/-- **Every step of the ledger is a step in the graph.** -/
theorem PullStep.pullStep {p q : Puller σ} (hp : Steady P s₀ S times p.ledger)
    (h : PullStep P s₀ S times p q) :
    Steady P s₀ S times q.ledger ∧ Pull.Step (Parent P.ndn S) (p.view P) (q.view P) ∧
      ∀ n ∈ q.ledger.fetched, n ∈ p.ledger.fetched ∨ n ∈ q.outstanding := by
  cases h with
  | @call c hc =>
      have hasks : Asks P p.ledger (p.call P c).ledger := call_asks c p.ledger
      obtain ⟨hs', hknown⟩ := hp.call hpos hsmall hgenesis hS htimely hc
      exact ⟨hs', hp.pullStep hgenesis hS hs' hknown hasks fun n hn => Or.inr hn,
        hasks.mem_expressed _⟩
  | answer h =>
      obtain ⟨amb, data, hd, _, rfl⟩ := h
      have hasks : Asks P p.ledger (p.answer P amb data).ledger := onFetchedRecord_asks data p.ledger
      obtain ⟨⟨hs', hknown⟩, hnew⟩ := hp.received hpos hsmall hgenesis hS htimely hd
      refine ⟨hs', hp.pullStep hgenesis hS hs' hknown hasks fun n hn => ?_, hasks.mem_expressed _⟩
      by_cases heq : n = P.ndn.fullName data
      · exact Or.inl (heq ▸ hnew)
      · exact Or.inr ((List.mem_erase_of_ne heq).2 hn)

theorem PullStep.pulls {p q : Puller σ} (hp : Pulling P s₀ S times p)
    (h : PullStep P s₀ S times p q) : Pulling P s₀ S times q := by
  obtain ⟨hsteady, hstep, hasked⟩ := h.pullStep hpos hsmall hgenesis hS htimely hp.steady
  refine ⟨hsteady, hp.closed.step hstep, fun n hn => ?_⟩
  rcases hasked n hn with hold | hnew
  · exact hstep.reached (hp.asked n hold)
  · exact Or.inr hnew

/-- **The invariant holds in every run**, and what is known or asked for stays so. -/
theorem PullRun.pulls {p q : Puller σ} (hp : Pulling P s₀ S times p)
    (h : PullRun P s₀ S times p q) :
    Pulling P s₀ S times q ∧ ∀ n, (p.view P).Reached n → (q.view P).Reached n := by
  induction h with
  | refl => exact ⟨hp, fun n hn => hn⟩
  | tail _ hstep ih =>
      obtain ⟨hpulls, hreached⟩ := ih
      obtain ⟨_, hview, _⟩ := hstep.pullStep hpos hsmall hgenesis hS htimely hpulls.steady
      exact ⟨hstep.pulls hpos hsmall hgenesis hS htimely hpulls,
        fun n hn => hview.reached (hreached n hn)⟩

/-- **An answer to the ledger is an answer in the graph.** -/
theorem AnswerStep.answer (hnum : P.config.precedingRecordNum < 2 ^ 31) {p q : Puller σ}
    (hp : Steady P s₀ S times p.ledger) (h : AnswerStep P s₀ S times p q) :
    Pull.Answer (P.ndn.fullName '' S) P.config.precedingRecordNum (p.view P) (q.view P) := by
  obtain ⟨amb, data, hd, hname, rfl⟩ := h
  obtain ⟨⟨_, hknown⟩, hnew⟩ := hp.received hpos hsmall hgenesis hS htimely hd
  refine ⟨hknown, P.ndn.fullName data, hnew,
    (expressed p.ledger (p.answer P amb data).ledger).length, ?_, ?_⟩
  · have hlength : 0 < p.outstanding.length := List.length_pos_of_mem hname
    show (expressed p.ledger (p.answer P amb data).ledger
      ++ p.outstanding.erase (P.ndn.fullName data)).length + 1 = p.outstanding.length + _
    rw [List.length_append, List.length_erase_of_mem hname]
    omega
  · rcases expressed_received (s := p.ledger) hS hd with hnone | ⟨record, hdec, hcheck, hnot, heq⟩
    · exact Or.inl (congrArg List.length hnone)
    · refine Or.inr ⟨⟨⟨data, hd.mem, rfl⟩, hnot⟩, ?_⟩
      show (expressed p.ledger (onFetchedRecord P amb data p.ledger).1).length ≤ _
      rw [heq, List.length_reverse, ← pointers_length_of_checked hnum hdec hcheck]
      exact List.length_filter_le _ _

end Runs

/-! ## When nothing is outstanding -/

/-- **Nothing waits then.** A record that waits has a pointer that is not in the tail. -/
theorem Pulling.stack_eq_nil (hS : Pullable P s₀.certManager S) {p : Puller σ}
    (hp : Pulling P s₀ S times p) (hnone : p.outstanding = []) : p.ledger.syncStack = [] := by
  have hfinite : {n | ∃ it ∈ p.ledger.syncStack, it.1.getRecordName P.ndn = n}.Finite := by
    refine (p.ledger.syncStack.map fun it => it.1.getRecordName P.ndn).finite_toSet.subset ?_
    rintro n ⟨it, hit, rfl⟩
    exact List.mem_map.2 ⟨it, hit, rfl⟩
  have hknown : (p.view P).known
      = tailing p.ledger ∪ {n | ∃ it ∈ p.ledger.syncStack, it.1.getRecordName P.ndn = n} := rfl
  have hempty := hp.closed.none_waits hnone hS.acyclic hfinite hknown fun n hn => by
    obtain ⟨it, hit, rfl⟩ := hn
    obtain ⟨d, _, _, _, htype⟩ :=
      hp.steady.arriving.waits_for hS.toEndorsable hp.steady.healthy.inv hit
    obtain ⟨ready, hready, hplaced⟩ :=
      hp.steady.arriving.readyToAdd_eq hp.steady.healthy.inv.tail htype
    rw [hp.steady.quiescent it hit] at hready
    cases hready
    simp only [Bool.false_eq_true, false_iff, not_forall] at hplaced
    obtain ⟨q, hq, hnot⟩ := hplaced
    exact ⟨q, (hp.steady.waiting_parent hS hit).2 hq, hnot⟩
  rw [List.eq_nil_iff_forall_not_mem]
  intro it hit
  rw [Set.eq_empty_iff_forall_notMem] at hempty
  exact hempty _ ⟨it, hit, rfl⟩

/-- **All that was asked for is there then, with its ancestors.** -/
theorem Pulling.hasRecord_of_reached (hS : Pullable P s₀.certManager S) {p : Puller σ}
    (hp : Pulling P s₀ S times p) (hnone : p.outstanding = []) {n m : Name}
    (hn : (p.view P).Reached n) (hpath : Relation.ReflTransGen (Parent P.ndn S) n m) :
    p.ledger.hasRecord P (P.ndn.toUri m) = true := by
  rw [hp.steady.arriving.hasRecord_iff hp.steady.healthy.inv.tail]
  rcases hp.closed.known_of_path hnone (hn.known hnone) hpath with htail | ⟨it, hit, _⟩
  · exact htail
  · rw [hp.stack_eq_nil hS hnone] at hit
    exact absurd hit List.not_mem_nil

end LedgerImpl

end DLedger
