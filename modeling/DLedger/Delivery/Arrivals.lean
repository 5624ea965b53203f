import DLedger.Delivery.Quiescent
import DLedger.Ledger.Counted
import DLedger.Lib.Arrival

set_option autoImplicit false

/-! # Received records arrive

A ledger receives the records of a finite set of packets, in some order and some of them more
than once. The set has too few producers for the contribution policy to fire, and no timeout
elapses. Then nothing leaves the tail, every record that is added is endorsed, and the tail holds
what can be placed: `Arriving` is the invariant, and `Known` says that what was received is in the
tail or waits.
-/

namespace DLedger

open Tlv (Bytes Block)

namespace LedgerImpl

variable {σ : Type} {P : Peer σ} {amb : Ambient} {s₀ s s' : LedgerImpl σ} {S : Finset Data}
  {times : List Int}

/-! ## What is received -/

/-- The producers of a set of packets. -/
def producers (S : Finset Data) : Finset Name :=
  S.image fun d => RecordName.getProducerPrefix d.name

/-- Generic records with different full names. -/
structure Generics (ndn : Ndn) (S : Finset Data) : Prop where
  generic : ∀ d ∈ S, RecordName.getRecordType d.name = .genericRecord
  fullName_injOn : Set.InjOn ndn.fullName S

/-- Generic records with endorsed signatures, of too few producers for a record to reach more than
`contributionWeight`. -/
structure Endorsable (P : Peer σ) (certManager : σ) (S : Finset Data) : Prop
    extends Generics P.ndn S where
  endorsed : ∀ d ∈ S, P.certManager.endorseSignature certManager d = .ok true
  producers_le : (producers S).card ≤ P.config.contributionWeight

/-- No timeout elapses between any two of these times. -/
def Timely (config : Config) (times : List Int) : Prop :=
  ∀ t ∈ times, ∀ t' ∈ times,
    t - t' ≤ config.ancestorFetchTimeout ∧ t - t' ≤ config.blockConfirmationTimeout

/-- No entry of the sync stack is late. -/
theorem Timely.not_late {config : Config} {times : List Int} (h : Timely config times) {t t' : Int}
    (ht : t ∈ times) (ht' : t' ∈ times) : ¬ config.ancestorFetchTimeout < |t - t'| := by
  have hleft := (h t ht t' ht').1
  have hright := (h t' ht' t ht).1
  exact not_lt.2 (abs_le.2 ⟨by omega, hleft⟩)

/-- The verdict of the application over a record, which is good where there is no callback. -/
def appEndorses (amb : Ambient) (data : Data) : Bool :=
  match amb.onRecordAppEndorseCheck with
  | some check => check data
  | none => true

/-- A packet of the set is received at one of the times. It passes the syntax check as a ledger
does it that starts with `s₀`, the application judges records by `accepts`, and writes succeed. -/
structure Delivery (P : Peer σ) (s₀ : LedgerImpl σ) (S : Finset Data) (accepts : Data → Bool)
    (times : List Int) (amb : Ambient) (data : Data) : Prop where
  mem : data ∈ S
  time : amb.now ∈ times
  checked : checkSyntaxValidityOfRecord P amb data s₀ = .ok true
  app : ∀ d, appEndorses amb d = accepts d
  writes : Ambient.Writes amb

/-- A pointer of a record of the set. -/
def Parent (ndn : Ndn) (S : Finset Data) (n p : Name) : Prop :=
  ∃ d ∈ S, ndn.fullName d = n ∧
    ∃ record, Record.ofData ndn d = .ok record ∧ p ∈ record.recordPointers

/-- The names of the tail. -/
def tailing (s : LedgerImpl σ) : Set Name := {n | ∃ t, s.tailRecords[n]? = some t}

/-- What can be in the tail of a ledger that starts with `s₀` and receives the set. -/
abbrev Placeable (P : Peer σ) (s₀ : LedgerImpl σ) (S : Finset Data) : Name → Prop :=
  Arrival.Available s₀.tailing (P.ndn.fullName '' S) (Parent P.ndn S)

/-- Only the clock, the manager of certificates and the callback of the application matter to the
syntax check. -/
theorem checkSyntaxValidityOfRecord_congr (h : s.certManager = s'.certManager) (data : Data) :
    checkSyntaxValidityOfRecord P amb data s = checkSyntaxValidityOfRecord P amb data s' := by
  unfold checkSyntaxValidityOfRecord checkSyntaxOfRecord
  rw [h]

/-- The endorsement check of a record whose signature is judged. -/
theorem checkEndorseValidityOfRecord_eq {data : Data} {record : Record} {signed : Bool}
    (hdec : Record.ofData P.ndn data = .ok record)
    (hsigned : P.certManager.endorseSignature s.certManager data = .ok signed) :
    checkEndorseValidityOfRecord P amb data s
      = .ok (signed && contributionAllowed P record.recordPointers s && appEndorses amb data) := by
  unfold checkEndorseValidityOfRecord appEndorses
  simp only [hdec, hsigned, bind, Except.bind, Except.mapError, pure, Except.pure]
  cases hallowed : signed && contributionAllowed P record.recordPointers s with
  | false => simp
  | true => cases amb.onRecordAppEndorseCheck <;> simp

/-- A check that returns has judged the signature. -/
theorem endorseSignature_of_checked {data : Data} {record : Record} {endorseVerified : Bool}
    (hdec : Record.ofData P.ndn data = .ok record)
    (h : checkEndorseValidityOfRecord P amb data s = .ok endorseVerified) :
    ∃ signed, P.certManager.endorseSignature s.certManager data = .ok signed := by
  cases hsigned : P.certManager.endorseSignature s.certManager data with
  | ok signed => exact ⟨signed, rfl⟩
  | error e =>
      unfold checkEndorseValidityOfRecord at h
      simp [hdec, hsigned, bind, Except.bind, Except.mapError] at h

/-! ## The invariant -/

/-- An entry of the tail: of a record that was there from the start, or of a record of the set. -/
structure Placed (P : Peer σ) (s₀ : LedgerImpl σ) (S : Finset Data) (times : List Int)
    (n : Name) (t : TailingRecordState) : Prop where
  endorsed : t.recordEndorseVerified = true
  time : t.addedTime ∈ times
  counted : t.refSet ⊆ producers S
  source : (∃ u, s₀.tailRecords[n]? = some u ∧ t.record = u.record) ∨
    ∃ d ∈ S, t.record.data = some d
  placeable : Placeable P s₀ S n

/-- A ledger that started with `s₀` and has received packets of the set. -/
structure Arriving (P : Peer σ) (s₀ : LedgerImpl σ) (S : Finset Data) (times : List Int)
    (s : LedgerImpl σ) : Prop where
  certManager : s.certManager = s₀.certManager
  base : ∀ (n : Name) (t : TailingRecordState), s₀.tailRecords[n]? = some t →
    ∃ u, s.tailRecords[n]? = some u
  entry : ∀ (n : Name) (t : TailingRecordState), s.tailRecords[n]? = some t →
    Placed P s₀ S times n t
  stored : ∀ (n : Name) (d : Data), s.backend.getRecord P.ndn n = some d →
    ∃ t, s.tailRecords[n]? = some t
  inserted : ∀ ins ∈ s.insertions, ∃ t,
    s.tailRecords[ins.1.getRecordName P.ndn]? = some t ∧ t.record = ins.1
  waiting : ∀ it ∈ s.syncStack, (∃ d ∈ S, it.1.data = some d) ∧ it.2 ∈ times

/-- A ledger starts with genesis records, which point to nothing. -/
def OnlyGenesis (s₀ : LedgerImpl σ) : Prop :=
  ∀ (n : Name) (t : TailingRecordState), s₀.tailRecords[n]? = some t →
    t.record.type = .genesisRecord ∧ t.record.recordPointers = []

/-- A name is in the tail, or a record of that name waits. -/
def Known (P : Peer σ) (s : LedgerImpl σ) (n : Name) : Prop :=
  (∃ t, s.tailRecords[n]? = some t) ∨ ∃ it ∈ s.syncStack, it.1.getRecordName P.ndn = n

theorem Arriving.withStack (ha : Arriving P s₀ S times s) {stack : List (Record × Int)}
    (hstack : ∀ it ∈ stack, (∃ d ∈ S, it.1.data = some d) ∧ it.2 ∈ times) :
    Arriving P s₀ S times (s.withStack stack) :=
  ⟨ha.certManager, ha.base, ha.entry, ha.stored, ha.inserted, hstack⟩

theorem Placed.mark {n producer : Name} {t : TailingRecordState}
    (h : Placed P s₀ S times n t) (hproducer : producer ∈ producers S) :
    Placed P s₀ S times n (t.mark producer) :=
  ⟨h.endorsed, h.time, Finset.insert_subset hproducer h.counted, h.source, h.placeable⟩

/-- What has arrived is too light to be removed or to be refused. -/
theorem Placed.card_le {certManager : σ} (hS : Endorsable P certManager S) {n : Name}
    {t : TailingRecordState} (h : Placed P s₀ S times n t) :
    t.refSet.card ≤ P.config.contributionWeight :=
  (Finset.card_le_card h.counted).trans hS.producers_le

/-- It has not expired at any of the times. -/
theorem Placed.not_expired (htimely : Timely P.config times) (hnow : amb.now ∈ times) {n : Name}
    {t : TailingRecordState} (h : Placed P s₀ S times n t) : ¬ Expired P.config amb t := by
  rintro ⟨_, hlate⟩
  have hwithin := (htimely _ hnow _ h.time).2
  omega

namespace Arriving

/-- Every entry of the tail is verified. -/
theorem verified (ha : Arriving P s₀ S times s) (hs : TailInv P s) {n : Name}
    {t : TailingRecordState} (ht : s.tailRecords[n]? = some t) : t.parentEndorseVerified = true :=
  (hs.sound.flags n t ht).trans (ha.entry n t ht).endorsed

/-- The ledger has the records of its tail and no others. -/
theorem hasRecord_iff (ha : Arriving P s₀ S times s) (hs : TailInv P s) {n : Name} :
    s.hasRecord P (P.ndn.toUri n) = true ↔ ∃ t, s.tailRecords[n]? = some t := by
  rw [hasRecord_toUri]
  constructor
  · rintro (⟨t, ht, _⟩ | ⟨_, d, hd⟩)
    · exact ⟨t, ht⟩
    · exact ha.stored n d hd
  · rintro ⟨t, ht⟩
    exact Or.inl ⟨t, ht, ha.verified hs ht⟩

/-- So do the names it has seen. -/
theorem seenRecord_iff (ha : Arriving P s₀ S times s) {n : Name} :
    s.seenRecord P n = true ↔ ∃ t, s.tailRecords[n]? = some t := by
  rw [LedgerImpl.seenRecord_iff]
  refine ⟨fun h => ?_, Or.inl⟩
  rcases h with h | ⟨d, hd⟩
  · exact h
  · exact ha.stored n d hd

end Arriving

/-! ## A record of the stack is added -/

/-- The record that waits is one of the set, and it is generic. -/
theorem Arriving.waits_for (hS : Endorsable P s₀.certManager S) (ha : Arriving P s₀ S times s)
    (hs : LedgerInv P s) {it : Record × Int} (hit : it ∈ s.syncStack) :
    ∃ d ∈ S, it.1.data = some d ∧ Record.ofData P.ndn d = .ok it.1 ∧
      it.1.type = .genericRecord := by
  obtain ⟨⟨d, hd, hdata⟩, _⟩ := ha.waiting it hit
  obtain ⟨n, hn, _⟩ := hs.stack.waiting it hit
  have hdec := (hn.ofData_eq hdata).1
  exact ⟨d, hd, hdata, hdec, (Record.ofData_eq_ok hdec).2.2.1.trans (hS.generic d hd)⟩

/-- A generic record is ready when its pointers are in the tail. -/
theorem Arriving.readyToAdd_eq (ha : Arriving P s₀ S times s) (hs : TailInv P s) {record : Record}
    (htype : record.type = .genericRecord) :
    ∃ ready, readyToAdd P record s = .ok ready ∧
      (ready = true ↔ ∀ p ∈ record.recordPointers, ∃ t, s.tailRecords[p]? = some t) := by
  have hnot : record.type ≠ .certificateRecord := by
    rw [htype]
    simp
  refine ⟨_, if_neg hnot, ?_⟩
  rw [List.all_eq_true]
  exact forall₂_congr fun p _ => ha.hasRecord_iff hs

/-- The policies endorse it. -/
theorem Arriving.endorse (hS : Endorsable P s₀.certManager S) (ha : Arriving P s₀ S times s)
    (happ : ∀ d, appEndorses amb d = true) {data : Data} {record : Record} (hdata : data ∈ S)
    (hdec : Record.ofData P.ndn data = .ok record)
    (hplaced : ∀ p ∈ record.recordPointers, ∃ t, s.tailRecords[p]? = some t) :
    checkEndorseValidityOfRecord P amb data s = .ok true := by
  have hcontribution : contributionAllowed P record.recordPointers s = true := by
    rw [contributionAllowed, List.all_eq_true]
    intro p hp
    obtain ⟨t, ht⟩ := hplaced p hp
    simp only [ht, decide_eq_true_eq]
    exact (ha.entry p t ht).card_le hS
  have hsigned := hS.endorsed data hdata
  rw [← ha.certManager] at hsigned
  rw [checkEndorseValidityOfRecord_eq hdec hsigned, hcontribution, happ data]
  rfl

section Insertion

variable {record : Record} {data : Data} {n : Name} {marked : Finset Name} {names : List Name}
  {mid : TailMap}

/-- Its producer is one of the set. -/
theorem producer_mem (hdata : data ∈ S) (hcheck : RecordName.check (P.ndn.fullName data) = .ok ()) :
    RecordName.getProducerPrefix (P.ndn.fullName data) ∈ producers S := by
  rw [(RecordName.sameReading_fullName hcheck).producerPrefix]
  exact Finset.mem_image_of_mem _ hdata

/-- A record of the set with all its pointers in the tail is added while no timeout elapses. -/
structure Arrives (P : Peer σ) (amb : Ambient) (s₀ : LedgerImpl σ) (S : Finset Data)
    (times : List Int) (record : Record) (n : Name) (s s' : LedgerImpl σ) (marked : Finset Name)
    (names : List Name) (mid : TailMap) : Prop
    extends Inserted P amb record true n s s' marked names mid where
  endorsable : Endorsable P s₀.certManager S
  timely : Timely P.config times
  time : amb.now ∈ times
  source : ∃ d ∈ S, P.ndn.fullName d = n ∧ record.data = some d
  placed : ∀ p ∈ record.recordPointers, ∃ t, s.tailRecords[p]? = some t

namespace Arrives

/-- After the walk every entry has arrived. -/
theorem walked_placed (h : Arrives P amb s₀ S times record n s s' marked names mid)
    (ha : Arriving P s₀ S times s) {x : Name} {t : TailingRecordState}
    (ht : walked amb record true n s.tailRecords.lookup marked x = some t) :
    Placed P s₀ S times x t := by
  obtain ⟨d, hd, hname, hdata⟩ := h.source
  rcases h.walked_cases ht with ⟨rfl, rfl⟩ | ⟨_, u, hu, rfl⟩
  · refine ⟨rfl, h.time, Finset.empty_subset _, Or.inr ⟨d, hd, hdata⟩, ?_⟩
    refine Arrival.Available.item ⟨d, hd, hname⟩ ?_
    rintro p ⟨d', hd', hname', record', hdec', hp⟩
    have heq : d' = d := h.endorsable.fullName_injOn hd' hd (hname'.trans hname.symm)
    rw [heq, (h.ready.named.ofData_eq hdata).1] at hdec'
    cases hdec'
    obtain ⟨u, hu⟩ := h.placed p hp
    exact (ha.entry p u hu).placeable
  · have hold := ha.entry x u hu
    split_ifs
    · apply hold.mark
      rw [← hname]
      exact producer_mem hd (hname ▸ h.ready.name rfl)
    · exact hold

/-- **Nothing leaves the tail**: no entry is deep, and none has expired. -/
theorem stays (h : Arrives P amb s₀ S times record n s s' marked names mid)
    (ha : Arriving P s₀ S times s) (hsmall : P.config.SmallWeights) {x : Name}
    {t : TailingRecordState}
    (ht : walked amb record true n s.tailRecords.lookup marked x = some t) :
    s'.tailRecords[x]? = some t := by
  rcases h.tail_or ht with htail | ⟨_, hdeep⟩ | ⟨_, y, u, hy, hexpired, _⟩
  · exact htail
  · have hlight := (h.walked_placed ha ht).card_le h.endorsable
    exact absurd hdeep.2 (not_le.2 (hlight.trans_lt hsmall.contributionWeight_lt))
  · have hplaced := h.walked_placed ha ((h.mid_iff y u).1 hy).1
    exact absurd hexpired (hplaced.not_expired h.timely h.time)

theorem stays_of_tail (h : Arrives P amb s₀ S times record n s s' marked names mid)
    (ha : Arriving P s₀ S times s) (hsmall : P.config.SmallWeights) {x : Name}
    {t : TailingRecordState} (ht : s.tailRecords[x]? = some t) :
    ∃ u, s'.tailRecords[x]? = some u ∧ u.record = t.record := by
  have hne : n ≠ x := by
    rintro rfl
    rw [h.ready.fresh] at ht
    cases ht
  have hwalked : walked amb record true n s.tailRecords.lookup marked x
      = some (if x ∈ marked then t.mark (RecordName.getProducerPrefix n) else t) := by
    rw [Added.walked_of_ne hne, ht, Option.map_some]
  exact ⟨_, h.stays ha hsmall hwalked, ite_mark_record _ _ _⟩

/-- No certificate or revocation record is confirmed. -/
theorem certManager (h : Arrives P amb s₀ S times record n s s' marked names mid)
    (ha : Arriving P s₀ S times s) (hgenesis : OnlyGenesis s₀) :
    s'.certManager = s.certManager := by
  rw [h.rest, withTail_certManager]
  refine confirmAll_certManager P amb (fun r hr => ?_) _
  obtain ⟨x, _, t, ht, _, rfl⟩ := h.mem_confirmedRecords.1 hr
  rcases (h.walked_placed ha ht).source with ⟨u, hu, heq⟩ | ⟨d, hd, hdata⟩
  · rw [heq, (hgenesis x u hu).1]
    simp
  · have hdec := ((h.named x t ht).ofData_eq hdata).1
    rw [(Record.ofData_eq_ok hdec).2.2.1, h.endorsable.generic d hd]
    simp

/-- **An added record keeps the invariant.** -/
theorem arriving (h : Arrives P amb s₀ S times record n s s' marked names mid)
    (ha : Arriving P s₀ S times s) (hsmall : P.config.SmallWeights) (hgenesis : OnlyGenesis s₀) :
    Arriving P s₀ S times s' where
  certManager := (h.certManager ha hgenesis).trans ha.certManager
  base x t ht := by
    obtain ⟨u, hu⟩ := ha.base x t ht
    obtain ⟨u', hu', _⟩ := h.stays_of_tail ha hsmall hu
    exact ⟨u', hu'⟩
  entry x t ht := h.walked_placed ha (h.walked_of_tail ht)
  stored x d hd := by
    -- what is confirmed now is marked, so it is in the tail, and no entry leaves it here
    have htail : ∃ t, s.tailRecords[x]? = some t := by
      rcases h.getRecord_cases hd with hd | hmarked
      · exact ha.stored x d hd
      · obtain ⟨_, _, _, t, ht, _⟩ := h.exists_of_mem hmarked
        exact ⟨t, ht⟩
    obtain ⟨t, ht⟩ := htail
    obtain ⟨u, hu, _⟩ := h.stays_of_tail ha hsmall ht
    exact ⟨u, hu⟩
  inserted ins hins := by
    rw [h.insertions_eq] at hins
    rcases List.mem_cons.1 hins with rfl | hins
    · rw [h.ready.named.getRecordName]
      exact ⟨_, h.stays ha hsmall h.walked_self, rfl⟩
    · obtain ⟨t, ht, heq⟩ := ha.inserted ins hins
      obtain ⟨u, hu, hrecord⟩ := h.stays_of_tail ha hsmall ht
      exact ⟨u, hu, hrecord.trans heq⟩
  waiting it hit := by
    rw [h.syncStack] at hit
    exact ha.waiting it hit

end Arrives

end Insertion

/-! ## Healthy ledgers -/

/-- A ledger whose invariants hold. -/
structure Healthy (P : Peer σ) (s : LedgerImpl σ) : Prop where
  inv : LedgerInv P s
  exact : Exact P s
  database : Stored P s

section Healthy

variable (hpos : 1 ≤ P.config.confirmWeight) (hsmall : P.config.SmallWeights)
include hpos hsmall

theorem Reachable.healthy {certManager : σ} (h : Reachable P Backend.empty certManager s) :
    Healthy P s :=
  ⟨h.inv hpos hsmall, h.exact hpos hsmall, h.stored hpos hsmall⟩

theorem Healthy.receiveMove {received : Data → Prop} (hs : Healthy P s)
    (hput : Ambient.Writes amb) (h : ReceiveMove P amb received s s') : Healthy P s' := by
  have hinv := hs.inv.receiveMove hpos hsmall hput h
  rcases hs.inv.ledgerHeld.receiveMove_cases h with hsame | ⟨_, _, _, a, _, _, _, hins, hsame⟩
  · exact ⟨hinv, hs.exact.congr hsame, hs.database.congr hsame⟩
  · exact ⟨hinv, (hs.exact.inserted hs.inv.tail hs.database hins).congr hsame,
      (hs.database.inserted hpos hsmall hput hs.inv.tail hins).congr hsame⟩

end Healthy

/-! ## Calls -/

section Calls

variable (hpos : 1 ≤ P.config.confirmWeight) (hsmall : P.config.SmallWeights)
  (hgenesis : OnlyGenesis s₀) (hS : Endorsable P s₀.certManager S) (htimely : Timely P.config times)
include hsmall hgenesis hS htimely

/-- **Every move keeps the invariant, and what is known stays known.** No entry of the sync stack
times out, and an entry that is resolved is in the tail from then on. -/
theorem Arriving.receiveMove {data : Data} (hd : Delivery P s₀ S (fun _ => true) times amb data)
    (ha : Arriving P s₀ S times s) (hs : Healthy P s)
    (h : ReceiveMove P amb (fun d => d ∈ S) s s') :
    Arriving P s₀ S times s' ∧ ∀ n, Known P s n → Known P s' n := by
  cases h with
  | @emit e quiet =>
      refine ⟨⟨ha.certManager, ha.base, ha.entry, ha.stored, ?_, ha.waiting⟩, fun n hn => hn⟩
      rw [emit_insertions, quiet.1]
      exact ha.inserted
  | @push received record receive decoded type_ne unseen unstacked checked =>
      refine ⟨ha.withStack fun it hit => ?_, fun n hn => hn.imp_right ?_⟩
      · rcases List.mem_append.1 hit with hit | hit
        · exact ha.waiting it hit
        · rw [List.mem_singleton.1 hit]
          exact ⟨⟨received, receive, (Record.ofData_eq_ok decoded).2.1⟩, hd.time⟩
      · rintro ⟨it, hit, hname⟩
        exact ⟨it, List.mem_append_left _ hit, hname⟩
  | @drop before rest it stack late =>
      have hwaiting := (ha.waiting it (by rw [stack]; simp)).2
      exact absurd late (htimely.not_late hd.time hwaiting)
  | @resolve s₁ before rest it data' endorseVerified stack ready data_eq endorse added =>
      have hit : it ∈ s.syncStack := by rw [stack]; simp
      obtain ⟨d, hmem, hdata, hdec, _⟩ := ha.waits_for hS hs.inv hit
      have hplaced : ∀ p ∈ it.1.recordPointers, ∃ t, s.tailRecords[p]? = some t :=
        fun p hp => (ha.hasRecord_iff hs.inv.tail).1 (readyToAdd_pointers ready p hp)
      obtain rfl : d = data' := Option.some.inj (hdata.symm.trans data_eq)
      rw [ha.endorse hS hd.app hmem hdec hplaced] at endorse
      cases endorse
      obtain ⟨n, marked, names, mid, hinserted, hname⟩ :=
        hs.inv.ledgerHeld.inserted_stack hit ready added
      have harrives : Arrives P amb s₀ S times it.1 n s s₁ marked names mid :=
        ⟨hinserted, hS, htimely, hd.time,
          ⟨d, hmem, (Record.getRecordName_of_ofData hdec).symm.trans hname, hdata⟩, hplaced⟩
      have hrest : ∀ it' ∈ before ++ rest, it' ∈ s.syncStack := by
        intro it' hit'
        rw [stack]
        exact ((List.Sublist.refl before).append (List.sublist_cons_self it rest)).subset hit'
      refine ⟨(harrives.arriving ha hsmall hgenesis).withStack
        fun it' hit' => ha.waiting it' (hrest it' hit'), fun m hm => ?_⟩
      -- what was known is in the tail and stays there, or waits on, or is the entry added
      rcases hm with ⟨t, ht⟩ | ⟨it', hit', hname'⟩
      · obtain ⟨u, hu, _⟩ := harrives.stays_of_tail ha hsmall ht
        exact Or.inl ⟨u, hu⟩
      · rw [stack, List.mem_append, List.mem_cons, or_left_comm] at hit'
        rcases hit' with rfl | hit'
        · -- it has been added
          rw [← hname', hname]
          exact Or.inl ⟨_, harrives.stays ha hsmall harrives.walked_self⟩
        · exact Or.inr ⟨it', List.mem_append.2 hit', hname'⟩

include hpos

theorem Arriving.receiveMoves {data : Data} (hd : Delivery P s₀ S (fun _ => true) times amb data)
    (ha : Arriving P s₀ S times s) (hs : Healthy P s)
    (h : ReceiveMoves P amb (fun d => d ∈ S) s s') :
    Arriving P s₀ S times s' ∧ Healthy P s' ∧ ∀ n, Known P s n → Known P s' n := by
  induction h with
  | refl => exact ⟨ha, hs, fun n hn => hn⟩
  | tail _ hmove ih =>
      obtain ⟨ha', hs', hknown⟩ := ih
      obtain ⟨ha'', hstep⟩ := ha'.receiveMove hsmall hgenesis hS htimely hd hs' hmove
      exact ⟨ha'', hs'.receiveMove hpos hsmall hd.writes hmove, fun n hn => hstep n (hknown n hn)⟩

/-- **A received packet is known.** -/
theorem Arriving.onFetchedRecord {data : Data} (hd : Delivery P s₀ S (fun _ => true) times amb data)
    (ha : Arriving P s₀ S times s) (hs : Healthy P s)
    (hrun : LedgerImpl.onFetchedRecord P amb data s = (s', .ok ())) :
    Arriving P s₀ S times s' ∧ Healthy P s' ∧ (∀ n, Known P s n → Known P s' n) ∧
      Known P s' (P.ndn.fullName data) := by
  have hmoves : ReceiveMoves P amb (fun d => d ∈ S) s s' := onFetchedRecord_moves hd.mem hrun
  obtain ⟨ha', hs', hknown⟩ := ha.receiveMoves hpos hsmall hgenesis hS htimely hd hs hmoves
  refine ⟨ha', hs', hknown, ?_⟩
  -- what is seen or waits is known already
  by_cases hseen : s.seenRecord P (P.ndn.fullName data) = true
  · exact hknown _ (Or.inl (ha.seenRecord_iff.1 hseen))
  by_cases hstacked : ∃ it ∈ s.syncStack, it.1.getRecordName P.ndn = P.ndn.fullName data
  · exact hknown _ (Or.inr hstacked)
  have hcheck : checkSyntaxValidityOfRecord P amb data s = .ok true :=
    (checkSyntaxValidityOfRecord_congr ha.certManager data).trans hd.checked
  obtain ⟨record, hdec⟩ := checkSyntaxValidityOfRecord_decoded hcheck
  have htype := (Record.ofData_eq_ok hdec).2.2.1.trans (hS.generic data hd.mem)
  have hr : Receivable P amb data record s :=
    ⟨hdec, by rw [htype]; decide, hcheck, Bool.not_eq_true _ ▸ hseen,
      fun it hit hname => hstacked ⟨it, hit, hname⟩⟩
  have hwaits : Known P (received P amb.now record s) (P.ndn.fullName data) :=
    Or.inr ⟨_, List.mem_append_right _ List.mem_cons_self, Record.getRecordName_of_ofData hdec⟩
  rw [hr.onFetchedRecord_eq] at hrun
  split_ifs at hrun
  · obtain ⟨hreceived, hinv, _⟩ :=
      ha.receiveMoves hpos hsmall hgenesis hS htimely hd hs (hr.moves hd.mem)
    exact (hreceived.receiveMoves hpos hsmall hgenesis hS htimely hd hinv
      (rescanStack_moves hrun)).2.2 _ hwaits
  · cases hrun
    exact hwaits

/-- **The call returns** where no name of the set ends with a digest. -/
theorem Arriving.onFetchedRecord_returns
    (hnames : ∀ d ∈ S, RecordName.hasImplicitDigest d.name = false) {data : Data}
    (hd : Delivery P s₀ S (fun _ => true) times amb data) (ha : Arriving P s₀ S times s)
    (hs : Healthy P s) : (LedgerImpl.onFetchedRecord P amb data s).2 = .ok () := by
  have htraced : Traced P amb (fun d => d ∈ S) s (LedgerImpl.onFetchedRecord P amb data s) :=
    onFetchedRecord_traced s hd.mem
  rcases hrun : (LedgerImpl.onFetchedRecord P amb data s).2 with f | ⟨⟨⟩⟩
  · obtain ⟨a, it, hmoves, hit, hcheck⟩ := htraced.raised f hrun
    obtain ⟨ha', hs', _⟩ := ha.receiveMoves hpos hsmall hgenesis hS htimely hd hs hmoves
    obtain ⟨d, hmem, hdata, hdec, htype⟩ := ha'.waits_for hS hs'.inv hit
    obtain ⟨ready, hready, hplaced⟩ := ha'.readyToAdd_eq hs'.inv.tail htype
    have hname : RecordName.check (P.ndn.fullName d) = .ok () :=
      RecordName.check_concat _ (Record.ofData_eq_ok hdec).1 (hnames d hmem)
    refine absurd hcheck (hs'.inv.checkRecordAncestor_ok hit hdata hname hready (fun hyes => ?_) f)
    exact ⟨true, ha'.endorse hS hd.app hmem hdec (hplaced.1 hyes)⟩
  · rfl

end Calls

/-! ## The start of a run -/

/-- The ledger receives packets, one after another. -/
def receiveAll (P : Peer σ) (calls : List (Ambient × Data)) (s : LedgerImpl σ) :
    LedgerImpl σ × Except Fault Unit :=
  Outcome.forEach (fun c => onFetchedRecord P c.1 c.2) calls s

/-- The times of the constructor and of the calls. -/
def callTimes (start : Ambient) (calls : List (Ambient × Data)) : List Int :=
  start.now :: calls.map fun c => c.1.now

/-- No timeout elapses while the clock stands still. -/
theorem timely_of_now_eq {config : Config} {start : Ambient} {calls : List (Ambient × Data)}
    (hfetch : 0 ≤ config.ancestorFetchTimeout) (hconfirm : 0 ≤ config.blockConfirmationTimeout)
    (h : ∀ c ∈ calls, c.1.now = start.now) : Timely config (callTimes start calls) := by
  have hnow : ∀ t ∈ callTimes start calls, t = start.now := by
    intro t ht
    rcases List.mem_cons.1 ht with rfl | ht
    · rfl
    · obtain ⟨c, hc, rfl⟩ := List.mem_map.1 ht
      exact h c hc
  intro t ht t' ht'
  rw [hnow t ht, hnow t' ht', sub_self]
  exact ⟨hfetch, hconfirm⟩

/-- While the constructor adds genesis records, every record that it has added is in the tail, with
the time of the constructor and an empty reference set, and none is added twice. -/
structure GenesisPlaced (start : Ambient) (ndn : Ndn) (s : LedgerImpl σ) : Prop where
  ordered : Ordered ndn s.insertions
  entry : ∀ (n : Name) (t : TailingRecordState), s.tailRecords[n]? = some t →
    t.addedTime = start.now ∧ t.refSet = ∅
  inserted : ∀ ins ∈ s.insertions, ∃ t,
    s.tailRecords[ins.1.getRecordName ndn]? = some t ∧ t.record = ins.1

theorem GenesisPlaced.added {start : Ambient} {record : Record} {n : Name} {marked : Finset Name}
    {names : List Name} {mid : TailMap} (hs : GenesisPlaced start P.ndn s)
    (htimeout : 0 ≤ P.config.blockConfirmationTimeout) (hpointers : record.recordPointers = [])
    (hr : AddReady P s record true n) (h : Added P start record true n s s' marked names mid) :
    GenesisPlaced start P.ndn s' := by
  have hempty := h.marked_eq_empty hpointers
  have hwalked : ∀ (x : Name) t,
      walked start record true n s.tailRecords.lookup marked x = some t →
      t.addedTime = start.now ∧ t.refSet = ∅ := by
    intro x t ht
    rcases h.walked_cases ht with ⟨_, rfl⟩ | ⟨_, u, hu, rfl⟩
    · exact ⟨rfl, rfl⟩
    · rw [hempty, if_neg (Finset.notMem_empty x)]
      exact hs.entry x u hu
  -- nothing leaves the tail
  have hstays : ∀ (x : Name) t,
      walked start record true n s.tailRecords.lookup marked x = some t →
      s'.tailRecords[x]? = some t := by
    intro x t ht
    rcases h.tail_or ht with htail | ⟨hmarked, _⟩ | ⟨_, y, u, hy, hexpired, _⟩
    · exact htail
    · rw [hempty] at hmarked
      exact absurd hmarked (Finset.notMem_empty x)
    · have hnow := (hwalked y u ((h.mid_iff y u).1 hy).1).1
      have hlate := hexpired.2
      omega
  have hnew : ∀ old ∈ s.insertions, n ≠ old.1.getRecordName P.ndn := by
    intro old hold hname
    obtain ⟨t, ht, _⟩ := hs.inserted old hold
    rw [← hname, hr.fresh] at ht
    cases ht
  refine ⟨?_, fun x t ht => hwalked x t (h.walked_of_tail ht), fun ins hins => ?_⟩
  · rw [h.insertions_eq]
    refine ⟨fun old hold heq => hnew old hold ?_, by simp [hpointers], hs.ordered⟩
    exact hr.named.getRecordName.symm.trans heq.symm
  rw [h.insertions_eq] at hins
  rcases List.mem_cons.1 hins with rfl | hins
  · rw [hr.named.getRecordName]
    exact ⟨_, hstays n _ h.walked_self, rfl⟩
  · obtain ⟨t, ht, heq⟩ := hs.inserted ins hins
    refine ⟨t, hstays _ t ?_, heq⟩
    rw [Added.walked_of_ne (hnew ins hins), ht, Option.map_some, hempty,
      if_neg (Finset.notMem_empty _)]

/-- The state just after the constructor, on an empty database. -/
structure Started (P : Peer σ) (start : Ambient) (s₀ : LedgerImpl σ) : Prop where
  healthy : Healthy P s₀
  genesis : OnlyGenesis s₀
  placed : GenesisPlaced start P.ndn s₀
  endorsed : ∀ (n : Name) (t : TailingRecordState), s₀.tailRecords[n]? = some t →
    t.recordEndorseVerified = true
  backend : s₀.backend = Backend.empty
  syncStack : s₀.syncStack = []

theorem construct_started {start : Ambient} {certManager : σ}
    (hpos : 1 ≤ P.config.confirmWeight) (hsmall : P.config.SmallWeights)
    (hput : Ambient.Writes start) (htimeout : 0 ≤ P.config.blockConfirmationTimeout)
    (h : construct P start Backend.empty certManager = (s₀, .ok ())) : Started P start s₀ := by
  have hhealthy := Reachable.healthy hpos hsmall (Reachable.start hput h)
  have hstack := (construct_core h).2
  have hblank : GenesisPlaced start P.ndn (blank Backend.empty certManager) :=
    ⟨trivial, fun n t ht => by simp [blank] at ht, fun ins hins => by cases hins⟩
  obtain ⟨s₁, hphase, hplaced, rfl⟩ := construct_induction hpos hsmall hput hblank
    (fun record n a b marked names mid _ ha hpointers hr hadded =>
      ha.added htimeout hpointers hr hadded) h
  have hsame : SameRecords s₁ (sendSyncInterest start s₁).1 := sendSyncInterest_sameRecords s₁
  refine ⟨hhealthy, fun n t ht => ?_, ⟨?_, ?_, ?_⟩, fun n t ht => ?_,
    hsame.backend.trans hphase.backend, hstack⟩
  · rw [hsame.tailRecords] at ht
    exact ⟨(hphase.type_eq n t ht).1, hphase.pointerless n t ht⟩
  · rw [hsame.insertions]
    exact hplaced.ordered
  · rw [hsame.tailRecords]
    exact hplaced.entry
  · rw [hsame.insertions, hsame.tailRecords]
    exact hplaced.inserted
  · rw [hsame.tailRecords] at ht
    exact (hphase.type_eq n t ht).2

theorem Started.arriving {start : Ambient} (h : Started P start s₀) (htime : start.now ∈ times) :
    Arriving P s₀ S times s₀ := by
  refine ⟨rfl, fun n t ht => ⟨t, ht⟩, fun n t ht => ?_, fun n d hd => ?_, h.placed.inserted,
    fun it hit => ?_⟩
  · obtain ⟨hadded, hempty⟩ := h.placed.entry n t ht
    refine ⟨h.endorsed n t ht, hadded ▸ htime, ?_, Or.inl ⟨t, ht, rfl⟩,
      Arrival.Available.base ⟨t, ht⟩⟩
    rw [hempty]
    exact Finset.empty_subset _
  · rw [h.backend, Backend.getRecord_empty] at hd
    cases hd
  · rw [h.syncStack] at hit
    cases hit

end LedgerImpl

end DLedger
