import DLedger.Delivery.Arrivals
import DLedger.Ledger.Sample

set_option autoImplicit false

/-! # The order of arrival

Where the contribution policy cannot fire and no timeout elapses, the records of a ledger that has
received a set of records do not depend on the order in which it received them: the tail holds
what can be placed, a reference set counts the producers that reach the record, the database holds
the heavy records, and what is left of the set waits.
-/

namespace DLedger

open Tlv (Bytes Block)

namespace LedgerImpl

variable {σ : Type} {P : Peer σ} {amb start : Ambient} {s₀ s s' : LedgerImpl σ} {S : Finset Data}
  {times : List Int} {calls : List (Ambient × Data)}

/-! ## Runs -/

/-- Calls that deliver every packet of a set at least once, and no other packet, while no timeout
elapses and the application accepts every record. -/
structure Delivers (P : Peer σ) (start : Ambient) (s₀ : LedgerImpl σ) (S : Finset Data)
    (calls : List (Ambient × Data)) : Prop where
  call : ∀ c ∈ calls, Delivery P s₀ S (fun _ => true) (callTimes start calls) c.1 c.2
  all : ∀ d ∈ S, ∃ c ∈ calls, c.2 = d
  timely : Timely P.config (callTimes start calls)

/-- The state after such calls. -/
structure Arrived (P : Peer σ) (s₀ : LedgerImpl σ) (S : Finset Data) (times : List Int)
    (s : LedgerImpl σ) : Prop where
  arriving : Arriving P s₀ S times s
  healthy : Healthy P s
  quiescent : Quiescent P s
  known : ∀ d ∈ S, Known P s (P.ndn.fullName d)

section Runs

variable (hpos : 1 ≤ P.config.confirmWeight) (hsmall : P.config.SmallWeights)
include hpos hsmall

/-- Such calls start just after the constructor. -/
theorem Delivers.started {certManager : σ} (hput : Ambient.Writes start)
    (hstart : construct P start Backend.empty certManager = (s₀, .ok ()))
    (h : Delivers P start s₀ S calls) : Started P start s₀ := by
  have htime : start.now ∈ callTimes start calls := List.mem_cons_self
  have hself := (h.timely _ htime _ htime).2
  exact construct_started hpos hsmall hput (by omega) hstart

/-- **Calls that return leave a state in which everything has arrived.** -/
theorem Delivers.arrived {certManager : σ} (hput : Ambient.Writes start)
    (hS : Endorsable P s₀.certManager S)
    (hstart : construct P start Backend.empty certManager = (s₀, .ok ()))
    (h : Delivers P start s₀ S calls) (hrun : receiveAll P calls s₀ = (s, .ok ())) :
    Arrived P s₀ S (callTimes start calls) s := by
  have hstarted := h.started hpos hsmall hput hstart
  have hstep : ∀ c ∈ calls, ∀ a b : LedgerImpl σ,
      Arriving P s₀ S (callTimes start calls) a ∧ Healthy P a ∧ Quiescent P a →
      onFetchedRecord P c.1 c.2 a = (b, .ok ()) →
      (Arriving P s₀ S (callTimes start calls) b ∧ Healthy P b ∧ Quiescent P b) ∧
        Known P b (P.ndn.fullName c.2) ∧ ∀ n, Known P a n → Known P b n := by
    rintro c hc a b ⟨ha, hhealthy, hquiescent⟩ hcall
    have hd := h.call c hc
    obtain ⟨hb, hhealthy', hkeep, hknown⟩ :=
      ha.onFetchedRecord hpos hsmall hstarted.genesis hS h.timely hd hhealthy hcall
    refine ⟨⟨hb, hhealthy', ?_⟩, hknown, hkeep⟩
    refine onFetchedRecord_quiescent (fun record hdec _ htype => ?_) hquiescent hcall
    rw [(Record.ofData_eq_ok hdec).2.2.1, hS.generic c.2 hd.mem] at htype
    cases htype
  have hinit : Arriving P s₀ S (callTimes start calls) s₀ ∧ Healthy P s₀ ∧ Quiescent P s₀ := by
    refine ⟨hstarted.arriving List.mem_cons_self, hstarted.healthy, fun it hit => ?_⟩
    rw [hstarted.syncStack] at hit
    cases hit
  obtain ⟨ha, hhealthy, hquiescent⟩ := Outcome.forEach_ok_invariant
    (fun s => Arriving P s₀ S (callTimes start calls) s ∧ Healthy P s ∧ Quiescent P s)
    (fun c hc a b hab hcall => (hstep c hc a b hab hcall).1) hinit hrun
  have hknown := Outcome.forEach_ok_forall
    (fun s => Arriving P s₀ S (callTimes start calls) s ∧ Healthy P s ∧ Quiescent P s)
    (fun c s => Known P s (P.ndn.fullName c.2))
    (fun c hc a b hab hcall => by
      obtain ⟨hI, hnew, hkeep⟩ := hstep c hc a b hab hcall
      exact ⟨hI, hnew, fun c' => hkeep _⟩) hinit hrun
  refine ⟨ha, hhealthy, hquiescent, fun d hd => ?_⟩
  obtain ⟨c, hc, rfl⟩ := h.all d hd
  exact hknown c hc

/-- They return where no name of the set ends with a digest. -/
theorem Delivers.returns {certManager : σ} (hput : Ambient.Writes start)
    (hS : Endorsable P s₀.certManager S)
    (hstart : construct P start Backend.empty certManager = (s₀, .ok ()))
    (hnames : ∀ d ∈ S, RecordName.hasImplicitDigest d.name = false)
    (h : Delivers P start s₀ S calls) : (receiveAll P calls s₀).2 = .ok () := by
  have hstarted := h.started hpos hsmall hput hstart
  refine Outcome.forEach_ok_of_invariant
    (fun s => Arriving P s₀ S (callTimes start calls) s ∧ Healthy P s) ?_
    ⟨hstarted.arriving List.mem_cons_self, hstarted.healthy⟩
  rintro c hc a ⟨ha, hhealthy⟩
  have hd := h.call c hc
  have hreturns := ha.onFetchedRecord_returns hpos hsmall hstarted.genesis hS h.timely hnames hd
    hhealthy
  obtain ⟨hb, hhealthy', _⟩ := ha.onFetchedRecord hpos hsmall hstarted.genesis hS h.timely hd
    hhealthy (Outcome.eq_of_returns hreturns)
  exact ⟨_, Outcome.eq_of_returns hreturns, hb, hhealthy'⟩

end Runs

/-! ## What has arrived is determined -/

namespace Arrived

variable (h : Arrived P s₀ S times s) (hS : Endorsable P s₀.certManager S)
include h hS

/-- A record of the tail is generic where it is one of the set. -/
theorem source_cases (hgenesis : OnlyGenesis s₀) {n : Name} {t : TailingRecordState}
    (ht : s.tailRecords[n]? = some t) :
    (RecordName.getRecordType n = .genesisRecord ∧
        ∃ u, s₀.tailRecords[n]? = some u ∧ t.record = u.record) ∨
      RecordName.getRecordType n = .genericRecord ∧
        ∃ d ∈ S, P.ndn.fullName d = n ∧ Record.ofData P.ndn d = .ok t.record := by
  have hplaced := h.arriving.entry n t ht
  have hnamed := h.healthy.inv.tail.sound.named n t ht
  have htype := hnamed.type_eq (h.healthy.inv.tail.sound.name n t ht hplaced.endorsed)
  rcases hplaced.source with ⟨u, hu, heq⟩ | ⟨d, hd, hdata⟩
  · left
    refine ⟨?_, u, hu, heq⟩
    rw [← htype, heq]
    exact (hgenesis n u hu).1
  · right
    obtain ⟨hdec, hname⟩ := hnamed.ofData_eq hdata
    refine ⟨?_, d, hd, hname, hdec⟩
    rw [← htype, (Record.ofData_eq_ok hdec).2.2.1]
    exact hS.generic d hd

omit hS in
/-- What is stored is in the tail, so the tail has the parents of its records. -/
theorem pointer_placed {n p : Name} {t : TailingRecordState} (ht : s.tailRecords[n]? = some t)
    (hp : p ∈ t.record.recordPointers) : ∃ u, s.tailRecords[p]? = some u := by
  rcases h.healthy.inv.tail.held n t ht p hp with hu | ⟨d, hd⟩
  · exact hu
  · exact h.arriving.stored p d hd

/-- The pointers of the records of the tail are the parents of their names. -/
theorem parent_iff (hgenesis : OnlyGenesis s₀) {n p : Name} {t : TailingRecordState}
    (ht : s.tailRecords[n]? = some t) : Parent P.ndn S n p ↔ p ∈ t.record.recordPointers := by
  have hnamed := h.healthy.inv.tail.sound.named n t ht
  have hcheck := h.healthy.inv.tail.sound.name n t ht (h.arriving.entry n t ht).endorsed
  rcases h.source_cases hS hgenesis ht with ⟨htype, u, hu, heq⟩ | ⟨_, d, hd, hname, hdec⟩
  · -- a genesis record has no parents
    rw [heq, (hgenesis n u hu).2]
    refine iff_of_false ?_ List.not_mem_nil
    rintro ⟨d, hd, hname, record, hdec, _⟩
    have hgeneric : record.type = RecordName.getRecordType n :=
      Record.Named.type_eq ⟨d, hname, hdec⟩ hcheck
    rw [htype, (Record.ofData_eq_ok hdec).2.2.1, hS.generic d hd] at hgeneric
    cases hgeneric
  · constructor
    · rintro ⟨d', hd', hname', record, hdec', hp⟩
      have heq : d' = d := hS.fullName_injOn hd' hd (hname'.trans hname.symm)
      rw [heq, hdec] at hdec'
      cases hdec'
      exact hp
    · exact fun hp => ⟨d, hd, hname, t.record, hdec, hp⟩

/-- **The tail holds what can be placed.** -/
theorem mem_tail_iff (n : Name) : (∃ t, s.tailRecords[n]? = some t) ↔ Placeable P s₀ S n := by
  change n ∈ s.tailing ↔ Placeable P s₀ S n
  refine Arrival.mem_placed_iff ?_ ?_ ?_ n
  · rintro n ⟨t, ht⟩
    exact h.arriving.base n t ht
  · rintro n ⟨t, ht⟩
    exact (h.arriving.entry n t ht).placeable
  · rintro n ⟨d, hd, rfl⟩ hparents
    rcases h.known d hd with htail | ⟨it, hit, hname⟩
    · exact htail
    -- a record that waits misses a parent
    exfalso
    obtain ⟨d', hd', hdata', hdec, htype⟩ := h.arriving.waits_for hS h.healthy.inv hit
    have hname' : P.ndn.fullName d' = P.ndn.fullName d :=
      (Record.getRecordName_of_ofData hdec).symm.trans hname
    obtain ⟨ready, hready, hplaced⟩ := h.arriving.readyToAdd_eq h.healthy.inv.tail htype
    have hyes : ready = true := hplaced.2 fun p hp => hparents p ⟨d', hd', hname', _, hdec, hp⟩
    rw [h.quiescent it hit, Except.ok.injEq] at hready
    rw [hyes] at hready
    cases hready

/-- Two ledgers have the same record under a name. -/
theorem record_eq (hgenesis : OnlyGenesis s₀) {times' : List Int}
    (h' : Arrived P s₀ S times' s') {n : Name} {t t' : TailingRecordState}
    (ht : s.tailRecords[n]? = some t) (ht' : s'.tailRecords[n]? = some t') :
    t.record = t'.record := by
  rcases h.source_cases hS hgenesis ht with ⟨htype, u, hu, heq⟩ | ⟨htype, d, hd, hname, hdec⟩ <;>
    rcases h'.source_cases hS hgenesis ht' with
      ⟨htype', u', hu', heq'⟩ | ⟨htype', d', hd', hname', hdec'⟩
  · rw [hu] at hu'
    cases hu'
    rw [heq, heq']
  · rw [htype] at htype'
    cases htype'
  · rw [htype] at htype'
    cases htype'
  · have heqd : d = d' := hS.fullName_injOn hd hd' (hname.trans hname'.symm)
    rw [← heqd, hdec] at hdec'
    exact Except.ok.inj hdec'

omit hS in
/-- Equal names come with equal packets. -/
theorem injOn_insertedData : Set.InjOn P.ndn.fullName (insertedData s.insertions) := by
  refine DLedger.injOn_insertedData fun ins hins ins' hins' heq => ?_
  obtain ⟨t, ht, hrecord⟩ := h.arriving.inserted ins hins
  obtain ⟨t', ht', hrecord'⟩ := h.arriving.inserted ins' hins'
  rw [heq, ht'] at ht
  cases ht
  rw [← hrecord, ← hrecord']

/-- **A reference set holds the other producers that reach the record.** What it should count it
does, and what reaches the record covers it. -/
theorem mem_refSet_iff (hgenesis : OnlyGenesis s₀) {n : Name} {t : TailingRecordState}
    (ht : s.tailRecords[n]? = some t) (a : Name) :
    a ∈ t.refSet ↔ a ≠ RecordName.getProducerPrefix n ∧ ∃ m, Placeable P s₀ S m ∧
      Relation.TransGen (Parent P.ndn S) m n ∧ a = RecordName.getProducerPrefix m := by
  constructor
  · intro ha
    obtain ⟨r, hr, hpath, hproducer, hother⟩ :=
      (h.healthy.exact.refSet h.injOn_insertedData n t ht a).1 ha
    obtain ⟨u, hu, _⟩ := h.arriving.inserted _ (since_subset hr)
    refine ⟨hother, r.getRecordName P.ndn, (h.mem_tail_iff hS _).1 ⟨u, hu⟩, ?_, hproducer⟩
    refine Relation.TransGen.mono (fun c p hcp => ?_) _ _ hpath
    obtain ⟨ins, hins, rfl, hp⟩ := hcp
    obtain ⟨v, hv, hrecord⟩ := h.arriving.inserted ins hins
    exact (h.parent_iff hS hgenesis hv).2 (hrecord ▸ hp)
  · rintro ⟨hother, m, hm, hpath, rfl⟩
    -- the producer covers what its record reaches
    have hcovers : ∃ u, s.tailRecords[n]? = some u ∧
        Covers (RecordName.getProducerPrefix m) n u := by
      have hstep : ∀ c p, (∃ u, s.tailRecords[c]? = some u ∧
          Covers (RecordName.getProducerPrefix m) c u) → Parent P.ndn S c p →
          ∃ u, s.tailRecords[p]? = some u ∧ Covers (RecordName.getProducerPrefix m) p u := by
        rintro c p ⟨u, hu, hcovers⟩ hcp
        have hp := (h.parent_iff hS hgenesis hu).1 hcp
        obtain ⟨v, hv⟩ := h.pointer_placed hu hp
        have hendorsed := (h.arriving.entry c u hu).endorsed
        exact ⟨v, hv, h.healthy.inv.tail.sound.closed c u hu hendorsed p hp v hv _ hcovers⟩
      obtain ⟨u, hu⟩ := (h.mem_tail_iff hS m).2 hm
      clear ht hother
      induction hpath with
      | single hmn => exact hstep _ _ ⟨u, hu, Or.inr rfl⟩ hmn
      | tail _ hlast ih => exact hstep _ _ ih hlast
    obtain ⟨u, hu, hcovers⟩ := hcovers
    rw [ht] at hu
    cases hu
    exact hcovers.resolve_right hother

omit hS in
/-- **The database holds the records that are heavy enough.** -/
theorem getRecord_eq (n : Name) : s.backend.getRecord P.ndn n = (s.tailRecords[n]?).bind fun t =>
    if P.config.confirmWeight ≤ t.refSet.card then t.record.data else none := by
  cases ht : s.tailRecords[n]? with
  | none =>
      rw [Option.bind_none, Option.eq_none_iff_forall_ne_some]
      intro d hd
      obtain ⟨t, htail⟩ := h.arriving.stored n d hd
      rw [ht] at htail
      cases htail
  | some t =>
      rw [Option.bind_some]
      split_ifs with hheavy
      · exact h.healthy.inv.tail.confirmed n t ht hheavy
      · rw [Option.eq_none_iff_forall_ne_some]
        exact fun d hd => hheavy (h.healthy.database.heavy n t d ht hd)

/-- **What waits is the rest of the set.** -/
theorem mem_syncStack_iff (n : Name) : (∃ it ∈ s.syncStack, it.1.getRecordName P.ndn = n) ↔
    (∃ d ∈ S, P.ndn.fullName d = n) ∧ ¬ Placeable P s₀ S n := by
  rw [← h.mem_tail_iff hS]
  constructor
  · rintro ⟨it, hit, rfl⟩
    obtain ⟨d, hd, _, hdec, _⟩ := h.arriving.waits_for hS h.healthy.inv hit
    obtain ⟨m, hm, hnone, _⟩ := h.healthy.inv.stack.waiting it hit
    refine ⟨⟨d, hd, (Record.getRecordName_of_ofData hdec).symm⟩, ?_⟩
    rintro ⟨t, ht⟩
    rw [hm.getRecordName, hnone] at ht
    cases ht
  · rintro ⟨⟨d, hd, rfl⟩, hnone⟩
    exact (h.known d hd).resolve_left hnone

end Arrived

/-! ## Two orders -/

/-- Two ledgers with the same tail, the times of the entries apart, the same database and the same
names in the sync stack. -/
structure SameOutcome (P : Peer σ) (s s' : LedgerImpl σ) : Prop where
  tailRecords : ∀ n : Name,
    (s.tailRecords[n]?).map (fun t =>
        (t.record, t.refSet, t.recordEndorseVerified, t.parentEndorseVerified))
      = (s'.tailRecords[n]?).map fun t =>
        (t.record, t.refSet, t.recordEndorseVerified, t.parentEndorseVerified)
  backend : ∀ n : Name, s.backend.getRecord P.ndn n = s'.backend.getRecord P.ndn n
  syncStack : ∀ n : Name, (∃ it ∈ s.syncStack, it.1.getRecordName P.ndn = n) ↔
    ∃ it ∈ s'.syncStack, it.1.getRecordName P.ndn = n

theorem Arrived.sameOutcome {times' : List Int} (h : Arrived P s₀ S times s)
    (h' : Arrived P s₀ S times' s') (hS : Endorsable P s₀.certManager S)
    (hgenesis : OnlyGenesis s₀) : SameOutcome P s s' := by
  have htail : ∀ n : Name, (s.tailRecords[n]?).map (fun t =>
        (t.record, t.refSet, t.recordEndorseVerified, t.parentEndorseVerified))
      = (s'.tailRecords[n]?).map fun t =>
        (t.record, t.refSet, t.recordEndorseVerified, t.parentEndorseVerified) := by
    intro n
    have hboth := (h.mem_tail_iff hS n).trans (h'.mem_tail_iff hS n).symm
    cases ht : s.tailRecords[n]? with
    | none =>
        cases ht' : s'.tailRecords[n]? with
        | none => rfl
        | some t' =>
            obtain ⟨t, ht''⟩ := hboth.2 ⟨t', ht'⟩
            rw [ht] at ht''
            cases ht''
    | some t =>
        obtain ⟨t', ht'⟩ := hboth.1 ⟨t, ht⟩
        have hrecord := h.record_eq hS hgenesis h' ht ht'
        have hrefSet : t.refSet = t'.refSet := by
          ext a
          rw [h.mem_refSet_iff hS hgenesis ht, h'.mem_refSet_iff hS hgenesis ht']
        have hflag := (h.arriving.entry n t ht).endorsed
        have hflag' := (h'.arriving.entry n t' ht').endorsed
        have hverified := h.arriving.verified h.healthy.inv.tail ht
        have hverified' := h'.arriving.verified h'.healthy.inv.tail ht'
        rw [ht', Option.map_some, Option.map_some, hrecord, hrefSet, hflag, hflag', hverified,
          hverified']
  -- what is stored is a function of the tail, and what waits one of the set
  refine ⟨htail, fun n => ?_, fun n => ?_⟩
  · rw [h.getRecord_eq, h'.getRecord_eq]
    have hn := htail n
    cases ht : s.tailRecords[n]? with
    | none =>
        cases ht' : s'.tailRecords[n]? with
        | none => rfl
        | some t' => rw [ht, ht'] at hn; cases hn
    | some t =>
        cases ht' : s'.tailRecords[n]? with
        | none => rw [ht, ht'] at hn; cases hn
        | some t' =>
            rw [ht, ht'] at hn
            simp only [Option.map_some, Option.some.injEq, Prod.mk.injEq] at hn
            rw [Option.bind_some, Option.bind_some, hn.1, hn.2.1]
  · rw [h.mem_syncStack_iff hS, h'.mem_syncStack_iff hS]

/-- **The order of arrival does not matter.** Any two sequences of calls that deliver the same set
leave the same records, where they return. They return unless the name of a packet ends with a
digest. -/
theorem arrival_order (hpos : 1 ≤ P.config.confirmWeight) (hsmall : P.config.SmallWeights)
    {certManager : σ} (hput : Ambient.Writes start)
    (hstart : construct P start Backend.empty certManager = (s₀, .ok ()))
    (hS : Endorsable P s₀.certManager S) :
    (∀ calls calls' s s', Delivers P start s₀ S calls → Delivers P start s₀ S calls' →
        receiveAll P calls s₀ = (s, .ok ()) → receiveAll P calls' s₀ = (s', .ok ()) →
        SameOutcome P s s') ∧
      ((∀ d ∈ S, RecordName.hasImplicitDigest d.name = false) →
        ∀ calls, Delivers P start s₀ S calls → (receiveAll P calls s₀).2 = .ok ()) := by
  refine ⟨fun calls calls' s s' h h' hrun hrun' => ?_, fun hnames calls h => ?_⟩
  · have harrived := h.arrived hpos hsmall hput hS hstart hrun
    have harrived' := h'.arrived hpos hsmall hput hS hstart hrun'
    exact harrived.sameOutcome harrived' hS (h.started hpos hsmall hput hstart).genesis
  · exact h.returns hpos hsmall hput hS hstart hnames

/-! ### A child before its parent -/

/-- A record and one on it by another producer. -/
def parentAndChild : Finset Data := Sample.twoPackets.toFinset

def parentCall : Ambient × Data := (Sample.ambient, Sample.packet 97 0 [Sample.genesis])

def childCall : Ambient × Data :=
  (Sample.ambient, Sample.packet 98 0 [Sample.ndn.fullName (Sample.packet 97 0 [Sample.genesis])])

/-- A peer that two producers cannot hinder, just after its constructor. -/
def twoProducerPeer : Peer Unit := Sample.peer (Sample.config 1 2 1)

def twoProducerStart : LedgerImpl Unit :=
  (construct twoProducerPeer Sample.ambient Backend.empty ()).1

theorem endorsable_parentAndChild :
    Endorsable twoProducerPeer twoProducerStart.certManager parentAndChild := by
  refine ⟨⟨by decide +kernel, fun d hd d' hd' heq => ?_⟩, fun _ _ => rfl, by decide +kernel⟩
  have hname : ∀ d ∈ parentAndChild, ∀ d' ∈ parentAndChild,
      Sample.ndn.fullName d = Sample.ndn.fullName d' → d = d' := by
    decide +kernel
  exact hname d hd d' hd' heq

/-- Both packets can be delivered at any time of a run at time zero. -/
theorem delivers_parentAndChild {calls : List (Ambient × Data)}
    (hcalls : ∀ c ∈ calls, c = childCall ∨ c = parentCall)
    (hall : ∀ d ∈ parentAndChild, ∃ c ∈ calls, c.2 = d) :
    Delivers twoProducerPeer Sample.ambient twoProducerStart parentAndChild calls := by
  have hdelivery : ∀ c, c = childCall ∨ c = parentCall → c.1 = Sample.ambient ∧
      c.2 ∈ parentAndChild ∧
        checkSyntaxValidityOfRecord twoProducerPeer c.1 c.2 twoProducerStart = .ok true := by
    rintro c (rfl | rfl)
    · exact ⟨rfl, by decide +kernel, by decide +kernel⟩
    · exact ⟨rfl, by decide +kernel, by decide +kernel⟩
  refine ⟨fun c hc => ?_, hall, timely_of_now_eq (by decide) (by decide) fun c hc => ?_⟩
  · obtain ⟨hamb, hmem, hchecked⟩ := hdelivery c (hcalls c hc)
    refine ⟨hmem, List.mem_cons_of_mem _ (List.mem_map.2 ⟨c, hc, rfl⟩), hchecked, ?_, ?_⟩
    · intro d
      rw [hamb]
      rfl
    · intro n
      rw [hamb]
      rfl
  · rw [(hdelivery c (hcalls c hc)).1]

/-- The child may be delivered before its parent, and the parent twice. -/
theorem arrival_order_childFirst :
    SameOutcome twoProducerPeer (receiveAll twoProducerPeer [childCall, parentCall]
        twoProducerStart).1
      (receiveAll twoProducerPeer [parentCall, childCall, parentCall] twoProducerStart).1 := by
  have hdelivers : Delivers twoProducerPeer Sample.ambient twoProducerStart parentAndChild
      [childCall, parentCall] :=
    delivers_parentAndChild (by simp) (by decide +kernel)
  have hdelivers' : Delivers twoProducerPeer Sample.ambient twoProducerStart parentAndChild
      [parentCall, childCall, parentCall] :=
    delivers_parentAndChild (by simp) (by decide +kernel)
  have hstart : (construct twoProducerPeer Sample.ambient Backend.empty ()).2 = .ok () := by
    decide +kernel
  have hnames : ∀ d ∈ parentAndChild, RecordName.hasImplicitDigest d.name = false := by
    decide +kernel
  obtain ⟨hsame, hreturns⟩ := arrival_order (P := twoProducerPeer) (by decide)
    (Sample.smallWeights (by decide) (by decide)) (fun _ => rfl) (Outcome.eq_of_returns hstart)
    endorsable_parentAndChild
  exact hsame _ _ _ _ hdelivers hdelivers' (Outcome.eq_of_returns (hreturns hnames _ hdelivers))
    (Outcome.eq_of_returns (hreturns hnames _ hdelivers'))

end LedgerImpl

end DLedger
