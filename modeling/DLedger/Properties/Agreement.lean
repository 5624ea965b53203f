import DLedger.Delivery.Verdicts
import DLedger.Ledger.Sample

set_option autoImplicit false

/-! # Two peers that receive the same records

Two ledgers start with the same genesis records and receive the same set of generic records, each
record after those it points to, in two orders. A record is judged when it arrives, by the
endorsed records that reach its pointers by then, so the verdicts can differ. They agree over
every part of the set in which the order cannot matter.
-/

namespace DLedger

open Tlv (Bytes Block)

namespace LedgerImpl

variable {σ : Type} {P P' : Peer σ} {start start' : Ambient} {s₀ s₀' s s' : LedgerImpl σ}
  {S : Finset Data} {accepts : Data → Bool} {calls calls' : List (Ambient × Data)}

/-! ## Runs -/

/-- The names of the packets that calls deliver. -/
def callNames (ndn : Ndn) (calls : List (Ambient × Data)) : List Name :=
  calls.map fun c => ndn.fullName c.2

/-- Calls that deliver every packet of a set once, after those it points to, and no other packet,
while no timeout elapses. -/
structure DeliversInOrder (P : Peer σ) (start : Ambient) (s₀ : LedgerImpl σ) (S : Finset Data)
    (accepts : Data → Bool) (calls : List (Ambient × Data)) : Prop where
  call : ∀ c ∈ calls, Delivery P s₀ S accepts (callTimes start calls) c.1 c.2
  order : Arrival.ParentsFirst (Parent P.ndn S) s₀.tailing (callNames P.ndn calls)
  all : ∀ d ∈ S, ∃ c ∈ calls, c.2 = d
  timely : Timely P.config (callTimes start calls)

namespace DeliversInOrder

variable (h : DeliversInOrder P start s₀ S accepts calls)
include h

/-- The next packet has not been delivered, and what it points to has. -/
theorem next {before later : List (Ambient × Data)} {c : Ambient × Data}
    (hcalls : calls = before ++ c :: later) :
    (P.ndn.fullName c.2 ∉ s₀.tailing ∧ P.ndn.fullName c.2 ∉ callNames P.ndn before) ∧
      ∀ p, Parent P.ndn S (P.ndn.fullName c.2) p → p ∈ s₀.tailing ∨ p ∈ callNames P.ndn before := by
  have hnames : callNames P.ndn calls
      = callNames P.ndn before ++ P.ndn.fullName c.2 :: callNames P.ndn later := by
    rw [hcalls, callNames, List.map_append, List.map_cons]
    rfl
  have hnodup := h.order.nodup
  rw [hnames, List.nodup_middle, List.nodup_cons, List.mem_append, not_or] at hnodup
  refine ⟨⟨h.order.outside _ ?_, hnodup.1.1⟩, h.order.parents _ _ _ hnames⟩
  rw [hnames]
  exact List.mem_append_right _ List.mem_cons_self

/-- The names of the set are those of the calls. -/
theorem mem_callNames {n : Name} : n ∈ callNames P.ndn calls ↔ ∃ d ∈ S, P.ndn.fullName d = n := by
  constructor
  · intro hn
    obtain ⟨c, hc, rfl⟩ := List.mem_map.1 hn
    exact ⟨c.2, (h.call c hc).mem, rfl⟩
  · rintro ⟨d, hd, rfl⟩
    obtain ⟨c, hc, rfl⟩ := h.all d hd
    exact List.mem_map.2 ⟨c, hc, rfl⟩

variable (hpos : 1 ≤ P.config.confirmWeight) (hsmall : P.config.SmallWeights)
include hpos hsmall

theorem started {certManager : σ} (hput : Ambient.Writes start)
    (hstart : construct P start Backend.empty certManager = (s₀, .ok ())) :
    Started P start s₀ := by
  have htime : start.now ∈ callTimes start calls := List.mem_cons_self
  have hself := (h.timely _ htime _ htime).2
  exact construct_started hpos hsmall hput (by omega) hstart

variable (hstarted : Started P start s₀) (hS : Generics P.ndn S)
include hstarted hS

/-- **Calls that return judge all records.** -/
theorem judged (hrun : receiveAll P calls s₀ = (s, .ok ())) :
    Judged P s₀ S accepts (callTimes start calls) (callNames P.ndn calls) s := by
  refine Outcome.forEach_ok_along
    (fun before => Judged P s₀ S accepts (callTimes start calls) (callNames P.ndn before))
    (fun before c later hcalls a b ha hcall => ?_) (hstarted.judged List.mem_cons_self) hrun
  obtain ⟨hnew, hparents⟩ := h.next hcalls
  have hd := h.call c (by rw [hcalls]; simp)
  rw [callNames, List.map_append]
  exact ha.onFetchedRecord hS hnew hpos hsmall hstarted h.timely hd hparents hcall

/-- They return where no name of the set ends with a digest and every signature is judged. -/
theorem returns (hnames : ∀ d ∈ S, RecordName.hasImplicitDigest d.name = false)
    (hsigned : ∀ d ∈ S, ∃ signed,
      P.certManager.endorseSignature s₀.certManager d = .ok signed) :
    (receiveAll P calls s₀).2 = .ok () := by
  refine Outcome.forEach_ok_of_along
    (fun before => Judged P s₀ S accepts (callTimes start calls) (callNames P.ndn before))
    (fun before c later hcalls a ha => ?_) (hstarted.judged List.mem_cons_self)
  obtain ⟨hnew, hparents⟩ := h.next hcalls
  have hd := h.call c (by rw [hcalls]; simp)
  have hreturns := ha.onFetchedRecord_returns hS hpos hsmall hstarted h.timely hnames hsigned hd
  refine ⟨_, Outcome.eq_of_returns hreturns, ?_⟩
  rw [callNames, List.map_append]
  exact ha.onFetchedRecord hS hnew hpos hsmall hstarted h.timely hd hparents
    (Outcome.eq_of_returns hreturns)

end DeliversInOrder

/-! ## Two peers -/

/-- Two peers with the same rules: the weights of the policies and the genesis records are the
same, and so are their verdicts over the signatures of a set of packets. -/
structure SameRules (P P' : Peer σ) (s₀ s₀' : LedgerImpl σ) (S : Finset Data) : Prop where
  ndn : P'.ndn = P.ndn
  contributionWeight : P'.config.contributionWeight = P.config.contributionWeight
  confirmWeight : P'.config.confirmWeight = P.config.confirmWeight
  tailing : s₀'.tailing = s₀.tailing
  endorseSignature : ∀ d ∈ S, P'.certManager.endorseSignature s₀'.certManager d
    = P.certManager.endorseSignature s₀.certManager d

theorem SameRules.smallWeights (h : SameRules P P' s₀ s₀' S) (hsmall : P.config.SmallWeights) :
    P'.config.SmallWeights := by
  refine ⟨?_, ?_⟩
  · rw [h.contributionWeight]
    exact hsmall.contribution
  · rw [h.confirmWeight]
    exact hsmall.confirm

/-- Records that arrive in one order get the same verdicts. -/
theorem SameRules.admittedNames_eq (h : SameRules P P' s₀ s₀' S) (order : List Name) :
    admittedNames P' s₀' S accepts order = admittedNames P s₀ S accepts order := by
  have hsound : Sound P' s₀' S accepts = Sound P s₀ S accepts := by
    funext n
    unfold Sound
    rw [h.ndn]
    refine propext (exists_congr fun d => and_congr_right fun hd => ?_)
    rw [h.endorseSignature d hd]
  unfold admittedNames
  rw [hsound, h.ndn, h.contributionWeight, h.tailing]

/-- A genesis record points to nothing. -/
theorem Started.not_parent (h : Started P start s₀) (hS : Generics P.ndn S) :
    ∀ n ∈ s₀.tailing, ∀ p, ¬ Parent P.ndn S n p := by
  rintro n ⟨t, ht⟩ p hparent
  have hv : Verdicts P s₀ S [start.now] s₀ := h.verdicts (List.mem_singleton_self _)
  have hins := h.healthy.exact.tail n t ht
  have hname := (h.healthy.inv.tail.sound.named n t ht).getRecordName
  rw [← hname, hv.log.parent_iff h hS hins, (h.genesis n t ht).2] at hparent
  exact List.not_mem_nil hparent

/-- What the order of arrival cannot change. -/
abbrev SettledPart (P : Peer σ) (s₀ : LedgerImpl σ) (S : Finset Data)
    (calls calls' : List (Ambient × Data)) (part : Set Name) : Prop :=
  Arrival.Settled (Parent P.ndn S) RecordName.getProducerPrefix P.config.contributionWeight
    s₀.tailing (callNames P.ndn calls) (callNames P.ndn calls') part

/-- **Where the contribution policy gives the same verdict at every peer.** -/
theorem verdicts_agree (hpos : 1 ≤ P.config.confirmWeight) (hsmall : P.config.SmallWeights)
    {certManager certManager' : σ} (hput : Ambient.Writes start) (hput' : Ambient.Writes start')
    (hstart : construct P start Backend.empty certManager = (s₀, .ok ()))
    (hstart' : construct P' start' Backend.empty certManager' = (s₀', .ok ()))
    (hsame : SameRules P P' s₀ s₀' S) (hS : Generics P.ndn S)
    (h : DeliversInOrder P start s₀ S accepts calls)
    (h' : DeliversInOrder P' start' s₀' S accepts calls') :
    (∀ part s s', SettledPart P s₀ S calls calls' part →
      receiveAll P calls s₀ = (s, .ok ()) → receiveAll P' calls' s₀' = (s', .ok ()) →
      (∀ n ∈ part, n ∈ endorsedNames P.ndn s.insertions ↔
        n ∈ endorsedNames P'.ndn s'.insertions) ∧
      ((∀ d ∈ S, P.ndn.fullName d ∈ part) → ∀ n,
        (∃ d, s.backend.getRecord P.ndn n = some d) ↔
          ∃ d, s'.backend.getRecord P'.ndn n = some d)) ∧
    ((∀ d ∈ S, RecordName.hasImplicitDigest d.name = false) →
      (∀ d ∈ S, ∃ signed, P.certManager.endorseSignature s₀.certManager d = .ok signed) →
      (receiveAll P calls s₀).2 = .ok () ∧ (receiveAll P' calls' s₀').2 = .ok ()) := by
  have hpos' : 1 ≤ P'.config.confirmWeight := by
    rw [hsame.confirmWeight]
    exact hpos
  have hsmall' := hsame.smallWeights hsmall
  have hS' : Generics P'.ndn S := by
    rw [hsame.ndn]
    exact hS
  have hstarted := h.started hpos hsmall hput hstart
  have hstarted' := h'.started hpos' hsmall' hput' hstart'
  refine ⟨fun part s s' hpart hrun hrun' => ?_, fun hnames hsigned => ?_⟩
  · have hj := h.judged hpos hsmall hstarted hS hrun
    have hj' := h'.judged hpos' hsmall' hstarted' hS' hrun'
    have hendorsed := hj.endorsed
    have hendorsed' := hj'.endorsed
    rw [hsame.admittedNames_eq, hsame.ndn] at hendorsed'
    have horder := h'.order
    rw [hsame.ndn, hsame.tailing] at horder
    have hroot := hstarted.not_parent hS
    have hmem : ∀ n, n ∈ callNames P.ndn calls ↔ n ∈ callNames P.ndn calls' := by
      intro n
      rw [h.mem_callNames, ← hsame.ndn, h'.mem_callNames]
    rw [hsame.ndn]
    refine ⟨fun n hn => ?_, fun hall n => ?_⟩
    · rw [hendorsed, hendorsed']
      exact Arrival.mem_admitted_iff_of_settled h.order horder hroot hmem hpart hn
    -- where all names are settled the two peers endorse the same, and what is stored follows
    · have heq : endorsedNames P.ndn s.insertions = endorsedNames P.ndn s'.insertions := by
        rw [hendorsed, hendorsed']
        refine Arrival.admitted_eq_of_settled h.order horder hroot hmem hpart fun x hx => ?_
        obtain ⟨d, hd, rfl⟩ := h.mem_callNames.1 hx
        exact hall d hd
      have hstored := hj.verdicts.getRecord_iff hj.healthy hstarted hS hsmall n
      have hstored' := hj'.verdicts.getRecord_iff hj'.healthy hstarted' hS' hsmall' n
      unfold countedProducers at hstored hstored'
      rw [hsame.ndn, hsame.confirmWeight, ← heq] at hstored'
      exact hstored.trans hstored'.symm
  · refine ⟨h.returns hpos hsmall hstarted hS hnames hsigned,
      h'.returns hpos' hsmall' hstarted' hS' hnames fun d hd => ?_⟩
    rw [hsame.endorseSignature d hd]
    exact hsigned d hd

/-! ### Three records on the genesis record -/

/-- Two of these peers differ in their names. -/
def rivalPeer (contributionWeight : Nat) (letter : UInt8) : Peer Unit :=
  Sample.peer { Sample.config 1 contributionWeight 1 with peerPrefix := [.generic [letter]] }

def rivalStart (contributionWeight : Nat) (letter : UInt8) : LedgerImpl Unit :=
  (construct (rivalPeer contributionWeight letter) Sample.ambient Backend.empty ()).1

/-- Three records of different producers, all of them on the genesis record. -/
def rivalPackets : List Data := [97, 98, 99].map fun producer => Sample.packet producer 0
  [Sample.genesis]

def rivalCalls (packets : List Data) : List (Ambient × Data) :=
  packets.map fun d => (Sample.ambient, d)

/-- The constructor returns, and the packets are new and pass the syntax check. -/
abbrev RivalsReady (contributionWeight : Nat) (letter : UInt8) : Prop :=
  (construct (rivalPeer contributionWeight letter) Sample.ambient Backend.empty ()).2 = .ok () ∧
    (rivalStart contributionWeight letter).tailRecords.contains Sample.genesis = true ∧
    ∀ d ∈ rivalPackets, RecordName.hasImplicitDigest d.name = false ∧
      (rivalStart contributionWeight letter).tailRecords.contains (Sample.ndn.fullName d) = false ∧
      checkSyntaxValidityOfRecord (rivalPeer contributionWeight letter) Sample.ambient d
        (rivalStart contributionWeight letter) = .ok true

theorem mem_tailing {n : Name} : n ∈ s.tailing ↔ s.tailRecords.contains n = true := by
  rw [Std.TreeMap.contains_eq_isSome_getElem?, Option.isSome_iff_exists]
  rfl

theorem generics_rivals {packets : List Data} (hpackets : ∀ d ∈ packets, d ∈ rivalPackets) :
    Generics Sample.ndn packets.toFinset := by
  have hname : ∀ d ∈ rivalPackets, ∀ d' ∈ rivalPackets,
      Sample.ndn.fullName d = Sample.ndn.fullName d' → d = d' := by
    decide +kernel
  have htype : ∀ d ∈ rivalPackets, RecordName.getRecordType d.name = .genericRecord := by
    decide +kernel
  refine ⟨fun d hd => htype d (hpackets d (List.mem_toFinset.1 hd)), fun d hd d' hd' => ?_⟩
  exact hname d (hpackets d (List.mem_toFinset.1 hd)) d' (hpackets d' (List.mem_toFinset.1 hd'))

/-- They point to the genesis record only. -/
theorem eq_genesis_of_parent {packets : List Data} (hpackets : ∀ d ∈ packets, d ∈ rivalPackets)
    {n p : Name} (h : Parent Sample.ndn packets.toFinset n p) : p = Sample.genesis := by
  obtain ⟨d, hd, _, record, hdec, hp⟩ := h
  obtain ⟨producer, _, rfl⟩ := List.mem_map.1 (hpackets d (List.mem_toFinset.1 hd))
  have hlength : (Sample.packet producer 0 [Sample.genesis]).content.length < 2 ^ 64 := by
    change (Sample.packet 0 0 [Sample.genesis]).content.length < 2 ^ 64
    decide +kernel
  rw [Sample.ofData_packet _ _ _ hlength] at hdec
  cases hdec
  exact List.mem_singleton.1 hp

/-- So they can be received in any order. -/
theorem deliversInOrder_rivals {contributionWeight : Nat} {letter : UInt8}
    (hready : RivalsReady contributionWeight letter) {packets packets' : List Data}
    (hperm : packets'.Perm packets) (hpackets : ∀ d ∈ packets, d ∈ rivalPackets)
    (hnodup : (packets.map Sample.ndn.fullName).Nodup) :
    DeliversInOrder (rivalPeer contributionWeight letter) Sample.ambient
      (rivalStart contributionWeight letter) packets.toFinset (fun _ => true)
      (rivalCalls packets') := by
  have hnames : callNames Sample.ndn (rivalCalls packets') = packets'.map Sample.ndn.fullName := by
    rw [callNames, rivalCalls, List.map_map]
    rfl
  have hcall : ∀ c ∈ rivalCalls packets', c.1 = Sample.ambient ∧ c.2 ∈ packets := by
    intro c hc
    obtain ⟨d, hd, rfl⟩ := List.mem_map.1 hc
    exact ⟨rfl, hperm.mem_iff.1 hd⟩
  -- the genesis record is the only parent, and it is in the tail before any packet
  refine ⟨fun c hc => ?_, ⟨?_, fun x hx => ?_, fun before x later _ p hp => ?_⟩, fun d hd => ?_,
    timely_of_now_eq (show (0 : Int) ≤ 1000 by decide) (show (0 : Int) ≤ 1000 by decide)
      fun c hc => ?_⟩
  · obtain ⟨hamb, hd⟩ := hcall c hc
    refine ⟨List.mem_toFinset.2 hd, List.mem_cons_of_mem _ (List.mem_map.2 ⟨c, hc, rfl⟩), ?_,
      fun d => ?_, fun n => ?_⟩
    · rw [hamb]
      exact (hready.2.2 c.2 (hpackets c.2 hd)).2.2
    · rw [hamb]
      rfl
    · rw [hamb]
      rfl
  · change (callNames Sample.ndn (rivalCalls packets')).Nodup
    rw [hnames]
    exact (hperm.map _).nodup_iff.2 hnodup
  · change x ∈ callNames Sample.ndn (rivalCalls packets') at hx
    rw [hnames] at hx
    obtain ⟨d, hd, rfl⟩ := List.mem_map.1 hx
    rw [mem_tailing, (hready.2.2 d (hpackets d (hperm.mem_iff.1 hd))).2.1]
    simp
  · rw [eq_genesis_of_parent hpackets hp]
    exact Or.inl (mem_tailing.2 hready.2.1)
  · exact ⟨_, List.mem_map.2 ⟨d, hperm.mem_iff.2 (List.mem_toFinset.1 hd), rfl⟩, rfl⟩
  · rw [(hcall c hc).1]

theorem sameRules_rivals {contributionWeight : Nat} {letter letter' : UInt8} (S : Finset Data)
    (htail : (rivalStart contributionWeight letter').tailRecords
      = (rivalStart contributionWeight letter).tailRecords) :
    SameRules (rivalPeer contributionWeight letter) (rivalPeer contributionWeight letter')
      (rivalStart contributionWeight letter) (rivalStart contributionWeight letter') S := by
  refine ⟨rfl, rfl, rfl, ?_, fun _ _ => rfl⟩
  unfold tailing
  rw [htail]

theorem rivalsReady_first : RivalsReady 1 112 := by
  decide +kernel

theorem rivalsReady_second : RivalsReady 1 113 := by
  decide +kernel

/-- Each of two of them has one rival. -/
theorem settled_twoRivals {letter : UInt8} {calls' : List (Ambient × Data)} :
    SettledPart (rivalPeer 1 letter) (rivalStart 1 112) (rivalPackets.take 2).toFinset
      (rivalCalls (rivalPackets.take 2)) calls'
      {n | n ∈ callNames Sample.ndn (rivalCalls (rivalPackets.take 2))} := by
  have hgenesis : ∀ n p, Parent Sample.ndn (rivalPackets.take 2).toFinset n p →
      p = Sample.genesis :=
    fun n p hp => eq_genesis_of_parent (fun d hd => List.mem_of_mem_take hd) hp
  refine ⟨fun x hx => hx, fun x _ p hp => Or.inl ?_, fun x hx p _ => Or.inl ?_⟩
  · rw [hgenesis x p hp, mem_tailing]
    exact rivalsReady_first.2.1
  · refine Set.encard_le_one_iff.2 ?_
    rintro a b ⟨_, y, hy, rfl, _, hyx, _⟩ ⟨_, y', hy', rfl, _, hyx', _⟩
    have htwo : ∀ n ∈ callNames Sample.ndn (rivalCalls (rivalPackets.take 2)),
        n = Sample.ndn.fullName (Sample.packet 97 0 [Sample.genesis]) ∨
          n = Sample.ndn.fullName (Sample.packet 98 0 [Sample.genesis]) := by
      intro n hn
      simpa [callNames, rivalCalls, rivalPackets] using hn
    rcases htwo x hx with rfl | rfl
    · rw [(htwo y hy).resolve_left hyx, (htwo y' hy').resolve_left hyx']
    · rw [(htwo y hy).resolve_right hyx, (htwo y' hy').resolve_right hyx']

/-- What a peer endorses that receives some of them. -/
def rivalsEndorsed (contributionWeight : Nat) (letter : UInt8) (packets : List Data) : Set Name :=
  endorsedNames Sample.ndn (receiveAll (rivalPeer contributionWeight letter) (rivalCalls packets)
    (rivalStart contributionWeight letter)).1.insertions

/-- So two peers agree on both, in either order. -/
theorem verdicts_agree_twoRivals :
    (Sample.ndn.fullName (Sample.packet 97 0 [Sample.genesis])
        ∈ rivalsEndorsed 1 112 (rivalPackets.take 2) ↔
      Sample.ndn.fullName (Sample.packet 97 0 [Sample.genesis])
        ∈ rivalsEndorsed 1 113 (rivalPackets.take 2).reverse) ∧
    (Sample.ndn.fullName (Sample.packet 98 0 [Sample.genesis])
        ∈ rivalsEndorsed 1 112 (rivalPackets.take 2) ↔
      Sample.ndn.fullName (Sample.packet 98 0 [Sample.genesis])
        ∈ rivalsEndorsed 1 113 (rivalPackets.take 2).reverse) := by
  have hpackets : ∀ d ∈ rivalPackets.take 2, d ∈ rivalPackets :=
    fun d hd => List.mem_of_mem_take hd
  have hnodup : ((rivalPackets.take 2).map Sample.ndn.fullName).Nodup := by
    decide +kernel
  have h := deliversInOrder_rivals rivalsReady_first (List.Perm.refl _) hpackets hnodup
  have h' := deliversInOrder_rivals rivalsReady_second (List.reverse_perm _) hpackets hnodup
  have hsame : SameRules (rivalPeer 1 112) (rivalPeer 1 113) (rivalStart 1 112) (rivalStart 1 113)
      (rivalPackets.take 2).toFinset := sameRules_rivals _ rfl
  have hsmall : (rivalPeer 1 112).config.SmallWeights :=
    Sample.smallWeights (by decide) (by decide)
  obtain ⟨hagree, hreturns⟩ := verdicts_agree (by decide) hsmall (fun _ => rfl) (fun _ => rfl)
    (Outcome.eq_of_returns rivalsReady_first.1) (Outcome.eq_of_returns rivalsReady_second.1) hsame
    (generics_rivals hpackets) h h'
  obtain ⟨hrun, hrun'⟩ := hreturns
    (fun d hd => (rivalsReady_first.2.2 d (hpackets d (List.mem_toFinset.1 hd))).1)
    fun _ _ => ⟨true, rfl⟩
  obtain ⟨hverdict, _⟩ := hagree _ _ _ settled_twoRivals (Outcome.eq_of_returns hrun)
    (Outcome.eq_of_returns hrun')
  have hfirst : Sample.ndn.fullName (Sample.packet 97 0 [Sample.genesis])
      ∈ callNames Sample.ndn (rivalCalls (rivalPackets.take 2)) := List.mem_cons_self
  have hsecond : Sample.ndn.fullName (Sample.packet 98 0 [Sample.genesis])
      ∈ callNames Sample.ndn (rivalCalls (rivalPackets.take 2)) :=
    List.mem_cons_of_mem _ List.mem_cons_self
  exact ⟨hverdict _ hfirst, hverdict _ hsecond⟩

/-! ### Verdicts that differ -/

/-- Two peers that receive these packets in two orders, and one record of which only the first
peer inserts it as endorsed. -/
structure DifferentVerdicts (contributionWeight : Nat) (packets packets' : List Data) (d : Data) :
    Prop where
  rules : SameRules (rivalPeer contributionWeight 112) (rivalPeer contributionWeight 113)
    (rivalStart contributionWeight 112) (rivalStart contributionWeight 113) packets.toFinset
  generics : Generics Sample.ndn packets.toFinset
  constructed : RivalsReady contributionWeight 112 ∧ RivalsReady contributionWeight 113
  first : DeliversInOrder (rivalPeer contributionWeight 112) Sample.ambient
    (rivalStart contributionWeight 112) packets.toFinset (fun _ => true) (rivalCalls packets)
  second : DeliversInOrder (rivalPeer contributionWeight 113) Sample.ambient
    (rivalStart contributionWeight 113) packets.toFinset (fun _ => true) (rivalCalls packets')
  mem : d ∈ packets
  endorsed : ((receiveAll (rivalPeer contributionWeight 112) (rivalCalls packets)
    (rivalStart contributionWeight 112)).1.tailRecords[Sample.ndn.fullName d]?).map
      (fun t => t.recordEndorseVerified) = some true
  unendorsed : ((receiveAll (rivalPeer contributionWeight 113) (rivalCalls packets')
    (rivalStart contributionWeight 113)).1.tailRecords[Sample.ndn.fullName d]?).map
      (fun t => t.recordEndorseVerified) = some false

theorem differentVerdicts {contributionWeight : Nat} {packets packets' : List Data} {d : Data}
    (hready : RivalsReady contributionWeight 112) (hready' : RivalsReady contributionWeight 113)
    (htail : (rivalStart contributionWeight 113).tailRecords
      = (rivalStart contributionWeight 112).tailRecords)
    (hpackets : ∀ d ∈ packets, d ∈ rivalPackets) (hperm : packets'.Perm packets)
    (hnodup : (packets.map Sample.ndn.fullName).Nodup) (hd : d ∈ packets)
    (hendorsed : ((receiveAll (rivalPeer contributionWeight 112) (rivalCalls packets)
      (rivalStart contributionWeight 112)).1.tailRecords[Sample.ndn.fullName d]?).map
        (fun t => t.recordEndorseVerified) = some true)
    (hunendorsed : ((receiveAll (rivalPeer contributionWeight 113) (rivalCalls packets')
      (rivalStart contributionWeight 113)).1.tailRecords[Sample.ndn.fullName d]?).map
        (fun t => t.recordEndorseVerified) = some false) :
    DifferentVerdicts contributionWeight packets packets' d :=
  ⟨sameRules_rivals _ htail, generics_rivals hpackets, ⟨hready, hready'⟩,
    deliversInOrder_rivals hready (List.Perm.refl _) hpackets hnodup,
    deliversInOrder_rivals hready' hperm hpackets hnodup, hd, hendorsed, hunendorsed⟩

/-- **The order of three rivals decides** which two of them are endorsed, and where the weight at
which a record leaves the tail does not fit into an `int`, so does the order of two. -/
theorem not_verdicts_agree_rivals :
    DifferentVerdicts 1 rivalPackets rivalPackets.reverse (Sample.packet 97 0 [Sample.genesis]) ∧
      DifferentVerdicts (2 ^ 31 - 1) (rivalPackets.take 2) (rivalPackets.take 2).reverse
        (Sample.packet 97 0 [Sample.genesis]) := by
  constructor
  · exact differentVerdicts rivalsReady_first rivalsReady_second rfl (fun _ hd => hd)
      (List.reverse_perm _) (by decide +kernel) (by decide +kernel) (by decide +kernel)
      (by decide +kernel)
  · exact differentVerdicts (by decide +kernel) (by decide +kernel) rfl
      (fun d hd => List.mem_of_mem_take hd) (List.reverse_perm _) (by decide +kernel)
      (by decide +kernel) (by decide +kernel) (by decide +kernel)

end LedgerImpl

end DLedger
