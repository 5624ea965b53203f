import DLedger.Delivery.Arrivals

set_option autoImplicit false

/-! # Verdicts

A ledger receives generic records while no timeout elapses. It inserts a record as endorsed when
the policies admit it, and it may remove records that are deep. `Verdicts` is what every insertion
keeps: what a reference set holds are the producers of the endorsed records that reach the record,
and a record that has left the tail has more of them than any policy allows.
-/

namespace DLedger

open Tlv (Bytes Block)

/-- The names of the records that a log inserts as endorsed. -/
def endorsedNames (ndn : Ndn) (log : List (Record × Bool)) : Set Name :=
  {n | ∃ r, (r, true) ∈ log ∧ r.getRecordName ndn = n}

theorem endorsedNames_mono {ndn : Ndn} {log : List (Record × Bool)} (ins : Record × Bool) :
    endorsedNames ndn log ⊆ endorsedNames ndn (ins :: log) := by
  rintro n ⟨r, hr, hname⟩
  exact ⟨r, List.mem_cons_of_mem _ hr, hname⟩

theorem mem_endorsedNames_cons {ndn : Ndn} {log : List (Record × Bool)} {record : Record}
    {endorseVerified : Bool} {n : Name} :
    n ∈ endorsedNames ndn ((record, endorseVerified) :: log) ↔
      n ∈ endorsedNames ndn log ∨ n = record.getRecordName ndn ∧ endorseVerified = true := by
  constructor
  · rintro ⟨r, hr, hname⟩
    rcases List.mem_cons.1 hr with heq | hr
    · cases heq
      exact Or.inr ⟨hname.symm, rfl⟩
    · exact Or.inl ⟨r, hr, hname⟩
  · rintro (h | ⟨rfl, rfl⟩)
    · exact endorsedNames_mono _ h
    · exact ⟨record, List.mem_cons_self, rfl⟩

namespace LedgerImpl

variable {σ : Type} {P : Peer σ} {amb start : Ambient} {s₀ s s' : LedgerImpl σ} {S : Finset Data}
  {times : List Int}

/-- The producers that a record counts: those of the endorsed records that reach it, without its
own. -/
abbrev countedProducers (ndn : Ndn) (S : Finset Data) (log : List (Record × Bool)) (n : Name) :
    Set Name :=
  Arrival.counted (Parent ndn S) RecordName.getProducerPrefix (endorsedNames ndn log) n

theorem countedProducers_mono {ndn : Ndn} {log : List (Record × Bool)} (ins : Record × Bool)
    (n : Name) : countedProducers ndn S log n ⊆ countedProducers ndn S (ins :: log) n := by
  rintro a ⟨hother, y, hy, hproducer, hpath⟩
  exact ⟨hother, y, endorsedNames_mono ins hy, hproducer, hpath⟩

/-! ## The log -/

/-- A log of insertions of a ledger that started with `s₀` and has inserted records of the set. -/
structure LogOf (ndn : Ndn) (s₀ : LedgerImpl σ) (S : Finset Data) (log : List (Record × Bool)) :
    Prop where
  ordered : Ordered ndn log
  logged : Logged ndn log
  base : ∀ ins ∈ s₀.insertions, ins ∈ log
  source : ∀ ins ∈ log, ins ∈ s₀.insertions ∨ ∃ d ∈ S, ins.1.data = some d

namespace LogOf

variable {log : List (Record × Bool)} (h : LogOf P.ndn s₀ S log) (hstarted : Started P start s₀)
  (hS : Generics P.ndn S)
include h hstarted hS

/-- The pointers of an inserted record are the parents of its name. -/
theorem parent_iff {ins : Record × Bool} (hins : ins ∈ log) {p : Name} :
    Parent P.ndn S (ins.1.getRecordName P.ndn) p ↔ p ∈ ins.1.recordPointers := by
  rcases h.source ins hins with hbase | ⟨d, hd, hdata⟩
  · -- a genesis record has no parents
    obtain ⟨t, ht, hrecord⟩ := hstarted.placed.inserted ins hbase
    obtain ⟨hgenesis, hpointers⟩ := hstarted.genesis _ t ht
    rw [← hrecord, hpointers, hrecord]
    refine iff_of_false ?_ List.not_mem_nil
    rintro ⟨d, hd, hname, _⟩
    have hsound := hstarted.healthy.inv.tail.sound
    have hcheck := hsound.name _ t ht (hstarted.endorsed _ t ht)
    have htype := (hsound.named _ t ht).type_eq hcheck
    rw [← hname] at hcheck htype
    rw [hgenesis, (RecordName.sameReading_fullName hcheck).recordType, hS.generic d hd] at htype
    cases htype
  · obtain ⟨m, hm⟩ := h.logged.named ins hins
    obtain ⟨hdec, hname⟩ := hm.ofData_eq hdata
    rw [hm.getRecordName]
    constructor
    · rintro ⟨d', hd', hname', record, hdec', hp⟩
      have heq : d' = d := hS.fullName_injOn hd' hd (hname'.trans hname.symm)
      rw [heq, hdec] at hdec'
      cases hdec'
      exact hp
    · exact fun hp => ⟨d, hd, hname, ins.1, hdec, hp⟩

/-- A path from an inserted record is a path of inserted records. -/
theorem path_iff {ins : Record × Bool} (hins : ins ∈ log) {n : Name} :
    Relation.TransGen (Parent P.ndn S) (ins.1.getRecordName P.ndn) n ↔
      Relation.TransGen (PointsTo P.ndn log) (ins.1.getRecordName P.ndn) n := by
  constructor
  · intro hpath
    have hstep : ∀ c p, (∃ ins ∈ log, ins.1.getRecordName P.ndn = c) →
        Parent P.ndn S c p → PointsTo P.ndn log c p := by
      rintro c p ⟨ins, hins, rfl⟩ hcp
      exact ⟨ins, hins, rfl, (h.parent_iff hstarted hS hins).1 hcp⟩
    induction hpath with
    | single hcp => exact Relation.TransGen.single (hstep _ _ ⟨ins, hins, rfl⟩ hcp)
    | tail _ hlast ih =>
        obtain ⟨c, _, old, hold, _, hp⟩ := Relation.TransGen.tail'_iff.1 ih
        exact ih.tail (hstep _ _ (h.ordered.target hold hp) hlast)
  · refine Relation.TransGen.mono (fun c p hcp => ?_) _ _
    obtain ⟨old, hold, rfl, hp⟩ := hcp
    exact (h.parent_iff hstarted hS hold).2 hp

/-- **What should be counted is counted.** -/
theorem mem_countedProducers_iff {n a : Name} :
    a ∈ countedProducers P.ndn S log n ↔ Counts P.ndn log n a := by
  rw [h.ordered.counts_iff]
  refine and_congr_right fun _ => ⟨?_, ?_⟩
  · rintro ⟨y, ⟨r, hr, rfl⟩, hproducer, hpath⟩
    exact ⟨r, hr, hproducer, (h.path_iff hstarted hS hr).1 hpath⟩
  · rintro ⟨r, hr, hproducer, hpath⟩
    exact ⟨_, ⟨r, hr, rfl⟩, hproducer, (h.path_iff hstarted hS hr).2 hpath⟩

omit hstarted hS in
/-- A record of the log is generic, or it is a genesis record. -/
theorem type_ne (hS : Generics P.ndn S) (hstarted : Started P start s₀) {ins : Record × Bool}
    (hins : ins ∈ log) :
    ins.1.type ≠ .certificateRecord ∧ ins.1.type ≠ .revocationRecord := by
  rcases h.source ins hins with hbase | ⟨d, hd, hdata⟩
  · obtain ⟨t, ht, hrecord⟩ := hstarted.placed.inserted ins hbase
    rw [← hrecord, (hstarted.genesis _ t ht).1]
    simp
  · obtain ⟨m, hm⟩ := h.logged.named ins hins
    rw [(Record.ofData_eq_ok (hm.ofData_eq hdata).1).2.2.1, hS.generic d hd]
    simp

end LogOf

/-! ## The invariant -/

/-- A ledger that has inserted records of the set. A record that has left the tail was endorsed, it
is deep, and it is stored. -/
structure Verdicts (P : Peer σ) (s₀ : LedgerImpl σ) (S : Finset Data) (times : List Int)
    (s : LedgerImpl σ) : Prop where
  certManager : s.certManager = s₀.certManager
  log : LogOf P.ndn s₀ S s.insertions
  kept : ∀ ins ∈ s.insertions, (∃ t, s.tailRecords[ins.1.getRecordName P.ndn]? = some t) ∨
    ins.2 = true ∧ (∃ d, s.backend.getRecord P.ndn (ins.1.getRecordName P.ndn) = some d) ∧
      (P.config.removeWeight : ℕ∞)
        ≤ (countedProducers P.ndn S s.insertions (ins.1.getRecordName P.ndn)).encard
  stored : ∀ (n : Name) (d : Data), s.backend.getRecord P.ndn n = some d →
    n ∈ endorsedNames P.ndn s.insertions
  time : ∀ (n : Name) (t : TailingRecordState), s.tailRecords[n]? = some t → t.addedTime ∈ times

theorem Started.verdicts (h : Started P start s₀) (htime : start.now ∈ times) :
    Verdicts P s₀ S times s₀ := by
  refine ⟨rfl, ⟨h.placed.ordered, h.healthy.exact.logged, fun _ hins => hins,
    fun _ hins => Or.inl hins⟩, fun ins hins => ?_, fun n d hd => ?_, fun n t ht => ?_⟩
  · obtain ⟨t, ht, _⟩ := h.placed.inserted ins hins
    exact Or.inl ⟨t, ht⟩
  · rw [h.backend, Backend.getRecord_empty] at hd
    cases hd
  · rw [(h.placed.entry n t ht).1]
    exact htime

namespace Verdicts

section Facts

variable (hv : Verdicts P s₀ S times s) (hs : Healthy P s)
include hv hs

/-- The flag of an entry says whether its record was inserted as endorsed. -/
theorem endorsed_iff {n : Name} {t : TailingRecordState} (ht : s.tailRecords[n]? = some t) :
    t.recordEndorseVerified = true ↔ n ∈ endorsedNames P.ndn s.insertions := by
  have hmem := hs.exact.tail n t ht
  have hname := (hs.inv.tail.sound.named n t ht).getRecordName
  constructor
  · intro hflag
    rw [hflag] at hmem
    exact ⟨t.record, hmem, hname⟩
  · rintro ⟨r, hr, hrname⟩
    have heq := hv.log.ordered.eq_of_name hmem hr (hname.trans hrname.symm)
    exact congrArg Prod.snd heq

/-- The ledger has the endorsed records. -/
theorem hasRecord_iff {n : Name} : s.hasRecord P (P.ndn.toUri n) = true ↔
    n ∈ endorsedNames P.ndn s.insertions := by
  rw [hasRecord_toUri]
  constructor
  · rintro (⟨t, ht, hflag⟩ | ⟨_, d, hd⟩)
    · rw [hs.inv.tail.sound.flags n t ht] at hflag
      exact (hv.endorsed_iff hs ht).1 hflag
    · exact hv.stored n d hd
  · rintro ⟨r, hr, rfl⟩
    cases htail : s.tailRecords[r.getRecordName P.ndn]? with
    | some t =>
        refine Or.inl ⟨t, rfl, ?_⟩
        rw [hs.inv.tail.sound.flags _ t htail]
        exact (hv.endorsed_iff hs htail).2 ⟨r, hr, rfl⟩
    | none =>
        rcases hv.kept _ hr with ⟨t, ht⟩ | ⟨_, hd, _⟩
        · rw [htail] at ht
          cases ht
        · exact Or.inr ⟨rfl, hd⟩

/-- It has seen the inserted records. -/
theorem seenRecord_iff {n : Name} :
    s.seenRecord P n = true ↔ ∃ ins ∈ s.insertions, ins.1.getRecordName P.ndn = n := by
  rw [LedgerImpl.seenRecord_iff]
  constructor
  · exact hs.exact.inserted_of_held hs.inv.tail hs.database
  · rintro ⟨ins, hins, rfl⟩
    rcases hv.kept ins hins with ht | ⟨_, hd, _⟩
    · exact Or.inl ht
    · exact Or.inr hd

variable (hstarted : Started P start s₀) (hS : Generics P.ndn S)
include hstarted hS

theorem coe_refSet {n : Name} {t : TailingRecordState} (ht : s.tailRecords[n]? = some t) :
    (t.refSet : Set Name) = countedProducers P.ndn S s.insertions n := by
  ext a
  rw [hv.log.mem_countedProducers_iff hstarted hS]
  exact hs.exact.refSet hv.log.ordered.injOn_insertedData n t ht a

/-- The contribution policy allows pointers to endorsed records with few producers. -/
theorem contributionAllowed_iff (hsmall : P.config.SmallWeights) {pointers : List Name}
    (hpointers : ∀ p ∈ pointers, p ∈ endorsedNames P.ndn s.insertions) :
    contributionAllowed P pointers s = true ↔ ∀ p ∈ pointers,
      (countedProducers P.ndn S s.insertions p).encard ≤ P.config.contributionWeight := by
  rw [contributionAllowed, List.all_eq_true]
  refine forall₂_congr fun p hp => ?_
  cases ht : s.tailRecords[p]? with
  | some t =>
      rw [← hv.coe_refSet hs hstarted hS ht, Set.encard_coe_eq_coe_finsetCard, Nat.cast_le]
      exact decide_eq_true_iff
  | none =>
      -- it has left the tail, so it is too deep
      refine iff_of_false (by simp) fun hle => ?_
      obtain ⟨r, hr, rfl⟩ := hpointers p hp
      rcases hv.kept _ hr with ⟨t, ht'⟩ | ⟨_, _, hdeep⟩
      · rw [ht] at ht'
        cases ht'
      · have hweight := Nat.cast_le.1 (hdeep.trans hle)
        exact absurd hsmall.contributionWeight_lt (not_lt.2 hweight)

end Facts

/-! ## Every insertion keeps it -/

section Insertion

variable {record : Record} {endorseVerified : Bool} {n : Name} {marked : Finset Name}
  {names : List Name} {mid : TailMap} (hv : Verdicts P s₀ S times s) (hs : Healthy P s)
  (h : Inserted P amb record endorseVerified n s s' marked names mid)
include hv h

/-- Entries have a time of the run. -/
theorem walked_time (hnow : amb.now ∈ times) {x : Name} {t : TailingRecordState}
    (ht : walked amb record endorseVerified n s.tailRecords.lookup marked x = some t) :
    t.addedTime ∈ times := by
  rcases h.walked_cases ht with ⟨_, rfl⟩ | ⟨_, u, hu, rfl⟩
  · exact hnow
  · rw [ite_mark_addedTime]
    exact hv.time x u hu

/-- **Only deep records leave the tail.** -/
theorem tail_or_deep (htimely : Timely P.config times) (hnow : amb.now ∈ times) {x : Name}
    {t : TailingRecordState}
    (ht : walked amb record endorseVerified n s.tailRecords.lookup marked x = some t) :
    s'.tailRecords[x]? = some t ∨ x ∈ marked ∧ IsDeep P t := by
  rcases h.tail_or ht with htail | hdeep | ⟨_, y, u, hy, ⟨_, hlate⟩, _⟩
  · exact Or.inl htail
  · exact Or.inr hdeep
  · have hadded := hv.walked_time h hnow ((h.mid_iff y u).1 hy).1
    have hwithin := (htimely _ hnow _ hadded).2
    omega

include hs

/-- The name of a new record is new. -/
theorem name_ne {old : Record × Bool} (hold : old ∈ s.insertions) :
    n ≠ old.1.getRecordName P.ndn := by
  intro hname
  have hseen := (hv.seenRecord_iff hs).2 ⟨old, hold, hname.symm⟩
  rw [seenRecord_eq_false.2 ⟨h.ready.fresh, h.unstored⟩] at hseen
  cases hseen

theorem logOf_cons (hsource : ∃ d ∈ S, record.data = some d) :
    LogOf P.ndn s₀ S ((record, endorseVerified) :: s.insertions) where
  ordered := by
    refine ⟨fun old hold heq => hv.name_ne hs h hold ?_, fun p hp => ?_, hv.log.ordered⟩
    · exact h.ready.named.getRecordName.symm.trans heq.symm
    · exact hs.exact.inserted_of_held hs.inv.tail hs.database (h.held p hp)
  logged := hs.exact.logged_cons hs.inv.tail hs.database h
  base ins hins := List.mem_cons_of_mem _ (hv.log.base ins hins)
  source ins hins := by
    rcases List.mem_cons.1 hins with rfl | hins
    · exact Or.inr hsource
    · exact hv.log.source ins hins

variable (hstarted : Started P start s₀) (hS : Generics P.ndn S)
  (hsource : ∃ d ∈ S, record.data = some d)
include hstarted hS hsource

/-- The manager of certificates stays as it is: no certificate record is confirmed. -/
theorem inserted_certManager : s'.certManager = s.certManager := by
  rw [h.rest, withTail_certManager]
  refine confirmAll_certManager P amb (fun r hr => ?_) _
  obtain ⟨x, _, t, ht, _, rfl⟩ := h.mem_confirmedRecords.1 hr
  exact (hv.logOf_cons hs h hsource).type_ne hS hstarted (hs.exact.walked_logged h.toAdded ht)

/-- What a deep record counts. -/
theorem deep_encard {x : Name} {t : TailingRecordState}
    (ht : walked amb record endorseVerified n s.tailRecords.lookup marked x = some t)
    (hdeep : IsDeep P t) : (P.config.removeWeight : ℕ∞) ≤
      (countedProducers P.ndn S ((record, endorseVerified) :: s.insertions) x).encard := by
  have hlog := hv.logOf_cons hs h hsource
  have hcounted : countedProducers P.ndn S ((record, endorseVerified) :: s.insertions) x
      = t.refSet := by
    ext a
    rw [hlog.mem_countedProducers_iff hstarted hS]
    exact (hs.exact.counts_cons hs.inv.tail hs.database h hlog.ordered.injOn_insertedData ht a).symm
  rw [hcounted, Set.encard_coe_eq_coe_finsetCard]
  exact Nat.cast_le.2 hdeep.2

/-- **Every insertion of a record of the set keeps the invariant.** -/
theorem inserted (hpos : 1 ≤ P.config.confirmWeight) (hsmall : P.config.SmallWeights)
    (hput : Ambient.Writes amb) (htimely : Timely P.config times) (hnow : amb.now ∈ times) :
    Verdicts P s₀ S times s' where
  certManager := (hv.inserted_certManager hs h hstarted hS hsource).trans hv.certManager
  log := by
    rw [h.insertions_eq]
    exact hv.logOf_cons hs h hsource
  kept ins hins := by
    rw [h.insertions_eq] at hins ⊢
    rcases List.mem_cons.1 hins with rfl | hins
    · left
      rw [h.ready.named.getRecordName]
      rcases hv.tail_or_deep h htimely hnow h.walked_self with htail | ⟨hmarked, _⟩
      · exact ⟨_, htail⟩
      · exact absurd hmarked h.notMem_self
    -- an earlier record is in the tail or, when it is deep, in the database
    rcases hv.kept ins hins with ⟨t, ht⟩ | ⟨he, ⟨d, hd⟩, hdeep⟩
    · have hwalked : walked amb record endorseVerified n s.tailRecords.lookup marked
          (ins.1.getRecordName P.ndn) = some (if ins.1.getRecordName P.ndn ∈ marked then
            t.mark (RecordName.getProducerPrefix n) else t) := by
        rw [Added.walked_of_ne (hv.name_ne hs h hins), ht, Option.map_some]
      rcases hv.tail_or_deep h htimely hnow hwalked with htail | ⟨hmarked, hdeep⟩
      · exact Or.inl ⟨_, htail⟩
      · -- it leaves the tail now
        right
        have hflag := h.endorsed_of_mem hs.inv.tail.sound h.ready hmarked ht
        obtain ⟨r, hr, hname⟩ := (hv.endorsed_iff hs ht).1 hflag
        obtain ⟨d, hd, _⟩ := (h.named _ _ hwalked).exists_data
        have hstored := h.stored_of_le hpos hput hs.inv.tail hwalked
          (hsmall.confirmWeight_le.trans hdeep.2)
        refine ⟨?_, ⟨d, hstored.trans hd⟩,
          hv.deep_encard hs h hstarted hS hsource hwalked hdeep⟩
        rw [hv.log.ordered.eq_of_name hins hr hname.symm]
    · exact Or.inr ⟨he, h.backend_mono hd,
        hdeep.trans (Set.encard_le_encard (countedProducers_mono _ _))⟩
  stored x d hd := by
    rw [h.insertions_eq]
    rcases h.getRecord_cases hd with hd | hmarked
    · exact endorsedNames_mono _ (hv.stored x d hd)
    · obtain ⟨_, _, _, t, ht, _⟩ := h.exists_of_mem hmarked
      have hflag := h.endorsed_of_mem hs.inv.tail.sound h.ready hmarked ht
      exact endorsedNames_mono _ ((hv.endorsed_iff hs ht).1 hflag)
  time x t ht := hv.walked_time h hnow (h.walked_of_tail ht)

end Insertion

/-- What is sent, and what waits, does not matter. -/
theorem congr (hv : Verdicts P s₀ S times s) (h : SameRecords s s')
    (hmanager : s'.certManager = s.certManager) : Verdicts P s₀ S times s' := by
  refine ⟨hmanager.trans hv.certManager, ?_, ?_, ?_, ?_⟩
  · rw [h.insertions]
    exact hv.log
  · rw [h.insertions, h.tailRecords, h.backend]
    exact hv.kept
  · rw [h.insertions, h.backend]
    exact hv.stored
  · rw [h.tailRecords]
    exact hv.time

end Verdicts

/-! ## A packet is judged -/

/-- The signature of the packet is endorsed, and the application accepts it. -/
def Sound (P : Peer σ) (s₀ : LedgerImpl σ) (S : Finset Data) (accepts : Data → Bool) (n : Name) :
    Prop :=
  ∃ d ∈ S, P.ndn.fullName d = n ∧
    P.certManager.endorseSignature s₀.certManager d = .ok true ∧ accepts d = true

/-- The verdict over a record, when the records of these names are endorsed. -/
abbrev AdmitsName (P : Peer σ) (s₀ : LedgerImpl σ) (S : Finset Data) (accepts : Data → Bool)
    (endorsed : Set Name) (n : Name) : Prop :=
  Arrival.Admits (Parent P.ndn S) RecordName.getProducerPrefix (Sound P s₀ S accepts)
    P.config.contributionWeight endorsed n

/-- The names that are admitted when the records of these names arrive in order. -/
abbrev admittedNames (P : Peer σ) (s₀ : LedgerImpl σ) (S : Finset Data) (accepts : Data → Bool)
    (order : List Name) : Set Name :=
  Arrival.admitted (Parent P.ndn S) RecordName.getProducerPrefix (Sound P s₀ S accepts)
    P.config.contributionWeight s₀.tailing order

theorem mem_admittedNames_concat {accepts : Data → Bool} {order : List Name} {m n : Name} :
    m ∈ admittedNames P s₀ S accepts (order ++ [n]) ↔ m ∈ admittedNames P s₀ S accepts order ∨
      m = n ∧ AdmitsName P s₀ S accepts (admittedNames P s₀ S accepts order) n :=
  Arrival.mem_admitted_concat

/-- What waits are records of the set that were received at one of the times. -/
def Stacked (S : Finset Data) (times : List Int) (s : LedgerImpl σ) : Prop :=
  ∀ it ∈ s.syncStack, (∃ d ∈ S, it.1.data = some d) ∧ it.2 ∈ times

/-- While a packet is processed its record waits with the others, or it has been judged. -/
inductive Underway (P : Peer σ) (s : LedgerImpl σ) (record : Record) (now : Int) (verdict : Prop)
    (a : LedgerImpl σ) : Prop where
  | waits (insertions : a.insertions = s.insertions)
      (stack : ∀ it ∈ a.syncStack, it ∈ s.syncStack ∨ it = (record, now))
      (mem : (record, now) ∈ a.syncStack)
  | judged {endorseVerified : Bool}
      (insertions : a.insertions = (record, endorseVerified) :: s.insertions)
      (stack : ∀ it ∈ a.syncStack, it ∈ s.syncStack)
      (verdict : endorseVerified = true ↔ verdict)

section Calls

variable {a b : LedgerImpl σ} {accepts : Data → Bool} {data : Data} {record : Record}
  (hpos : 1 ≤ P.config.confirmWeight) (hsmall : P.config.SmallWeights)
  (hstarted : Started P start s₀) (hS : Generics P.ndn S) (htimely : Timely P.config times)

include hstarted hS hsmall in
/-- **A record that is resolved is judged by what is endorsed then.** -/
theorem Verdicts.endorse_iff (hv : Verdicts P s₀ S times a) (hs : Healthy P a)
    (hd : Delivery P s₀ S accepts times amb data) (hdec : Record.ofData P.ndn data = .ok record)
    (hready : readyToAdd P record a = .ok true) {endorseVerified : Bool}
    (hendorse : checkEndorseValidityOfRecord P amb data a = .ok endorseVerified) :
    endorseVerified = true ↔
      AdmitsName P s₀ S accepts (endorsedNames P.ndn a.insertions) (P.ndn.fullName data) := by
  have hpointers : ∀ p ∈ record.recordPointers, p ∈ endorsedNames P.ndn a.insertions :=
    fun p hp => (hv.hasRecord_iff hs).1 (readyToAdd_pointers hready p hp)
  have hparent : ∀ p, Parent P.ndn S (P.ndn.fullName data) p ↔ p ∈ record.recordPointers := by
    intro p
    constructor
    · rintro ⟨d, hmem, hname, r, hr, hp⟩
      rw [hS.fullName_injOn hmem hd.mem hname, hdec] at hr
      cases hr
      exact hp
    · exact fun hp => ⟨data, hd.mem, rfl, record, hdec, hp⟩
  have hsound : Sound P s₀ S accepts (P.ndn.fullName data) ↔
      P.certManager.endorseSignature a.certManager data = .ok true ∧ accepts data = true := by
    rw [hv.certManager]
    constructor
    · rintro ⟨d, hmem, hname, hsigned, haccepts⟩
      rw [hS.fullName_injOn hmem hd.mem hname] at hsigned haccepts
      exact ⟨hsigned, haccepts⟩
    · exact fun h => ⟨data, hd.mem, rfl, h⟩
  -- the weights that the policy reads are the producers counted in the log
  have hcontribution := hv.contributionAllowed_iff hs hstarted hS hsmall hpointers
  obtain ⟨signed, hsigned⟩ := endorseSignature_of_checked hdec hendorse
  rw [checkEndorseValidityOfRecord_eq hdec hsigned, hd.app, Except.ok.injEq] at hendorse
  unfold AdmitsName Arrival.Admits
  rw [← hendorse, Bool.and_eq_true, Bool.and_eq_true, hcontribution, hsound, hsigned,
    Except.ok.injEq]
  constructor
  · rintro ⟨⟨hyes, hall⟩, haccepts⟩
    exact ⟨⟨hyes, haccepts⟩, fun p hp =>
      ⟨hpointers p ((hparent p).1 hp), hall p ((hparent p).1 hp)⟩⟩
  · rintro ⟨⟨hyes, haccepts⟩, hall⟩
    exact ⟨⟨hyes, fun p hp => (hall p ((hparent p).2 hp)).2⟩, haccepts⟩

/-- A record that waits for one that is not endorsed is not ready. -/
theorem Verdicts.not_ready (hv : Verdicts P s₀ S times a) (hs : Healthy P a) {p : Name}
    (hp : p ∈ record.recordPointers) (hmissing : p ∉ endorsedNames P.ndn a.insertions) :
    readyToAdd P record a ≠ .ok true :=
  fun hready => hmissing ((hv.hasRecord_iff hs).1 (readyToAdd_pointers hready p hp))

/-- A generic record that is not ready misses one. -/
theorem Verdicts.exists_missing (hv : Verdicts P s₀ S times a) (hs : Healthy P a)
    (htype : record.type = .genericRecord) (h : readyToAdd P record a = .ok false) :
    ∃ p ∈ record.recordPointers, p ∉ endorsedNames P.ndn a.insertions := by
  rcases (readyToAdd_eq_false_iff.1 h).2 with ⟨p, hp, hhas⟩ | ⟨hcert, _⟩
  · refine ⟨p, hp, fun hmem => ?_⟩
    rw [(hv.hasRecord_iff hs).2 hmem] at hhas
    cases hhas
  · rw [htype] at hcert
    cases hcert

include hpos hsmall hstarted hS htimely

/-- Every move keeps the invariant. -/
theorem Verdicts.receiveMove {received : Data → Prop} (hreceived : ∀ d, received d → d ∈ S)
    (hd : Delivery P s₀ S accepts times amb data) (hv : Verdicts P s₀ S times a)
    (hs : Healthy P a) (hstacked : Stacked S times a) (h : ReceiveMove P amb received a b) :
    Verdicts P s₀ S times b ∧ Stacked S times b := by
  cases h with
  | @emit e quiet =>
      have hins : (a.emit e).insertions = a.insertions := by
        rw [emit_insertions, quiet.1]
        rfl
      exact ⟨⟨hv.certManager, hins ▸ hv.log, hins ▸ hv.kept, hins ▸ hv.stored, hv.time⟩, hstacked⟩
  | @push d r receive decoded type_ne unseen unstacked checked =>
      refine ⟨hv.congr ⟨rfl, rfl, rfl, rfl, rfl⟩ rfl, fun it hit => ?_⟩
      rcases List.mem_append.1 hit with hit | hit
      · exact hstacked it hit
      · rw [List.mem_singleton.1 hit]
        exact ⟨⟨d, hreceived d receive, (Record.ofData_eq_ok decoded).2.1⟩, hd.time⟩
  | @drop before rest it stack late =>
      refine ⟨hv.congr ⟨rfl, rfl, rfl, rfl, rfl⟩ rfl, fun it' hit' => hstacked it' ?_⟩
      rw [stack]
      exact ((List.Sublist.refl before).append (List.sublist_cons_self it rest)).subset hit'
  | @resolve c before rest it data' endorseVerified stack ready data_eq endorse added =>
      have hit : it ∈ a.syncStack := by rw [stack]; simp
      obtain ⟨n, marked, names, mid, hinserted, _⟩ :=
        hs.inv.ledgerHeld.inserted_stack hit ready added
      have hc := hv.inserted hs hinserted hstarted hS (hstacked it hit).1 hpos hsmall hd.writes
        htimely hd.time
      refine ⟨hc.congr ⟨rfl, rfl, rfl, rfl, rfl⟩ rfl, fun it' hit' => hstacked it' ?_⟩
      rw [stack]
      exact ((List.Sublist.refl before).append (List.sublist_cons_self it rest)).subset hit'

theorem Verdicts.receiveMoves {received : Data → Prop} (hreceived : ∀ d, received d → d ∈ S)
    (hd : Delivery P s₀ S accepts times amb data) (hv : Verdicts P s₀ S times a)
    (hs : Healthy P a) (hstacked : Stacked S times a) (h : ReceiveMoves P amb received a b) :
    Verdicts P s₀ S times b ∧ Healthy P b ∧ Stacked S times b := by
  induction h with
  | refl => exact ⟨hv, hs, hstacked⟩
  | tail _ hmove ih =>
      obtain ⟨hv', hs', hstacked'⟩ := ih
      obtain ⟨hv'', hstacked''⟩ := hv'.receiveMove hpos hsmall hstarted hS htimely hreceived hd hs'
        hstacked' hmove
      exact ⟨hv'', hs'.receiveMove hpos hsmall hd.writes hmove, hstacked''⟩

omit hpos in
/-- **Every move of the loop keeps this.** The records that waited before wait on, as they miss
one that is not endorsed, and so the record of the packet is the only one that can be added. -/
theorem Underway.receiveMove (hd : Delivery P s₀ S accepts times amb data)
    (hdec : Record.ofData P.ndn data = .ok record)
    (hmissing : ∀ it ∈ s.syncStack, ∃ p ∈ it.1.recordPointers,
      p ≠ P.ndn.fullName data ∧ p ∉ endorsedNames P.ndn s.insertions)
    (hu : Underway P s record amb.now
      (AdmitsName P s₀ S accepts (endorsedNames P.ndn s.insertions) (P.ndn.fullName data)) a)
    (hv : Verdicts P s₀ S times a) (hs : Healthy P a) (hstacked : Stacked S times a)
    (h : ReceiveMove P amb (fun _ => False) a b) :
    Underway P s record amb.now
      (AdmitsName P s₀ S accepts (endorsedNames P.ndn s.insertions) (P.ndn.fullName data)) b := by
  have hname : record.getRecordName P.ndn = P.ndn.fullName data :=
    Record.getRecordName_of_ofData hdec
  -- what waited before is not ready
  have hwaits : ∀ it ∈ s.syncStack, readyToAdd P it.1 a ≠ .ok true := by
    intro it hit
    obtain ⟨p, hp, hne, hnot⟩ := hmissing it hit
    refine hv.not_ready hs hp ?_
    cases hu with
    | waits hins _ _ =>
        rw [hins]
        exact hnot
    | judged hins _ _ =>
        rw [hins, mem_endorsedNames_cons, hname]
        exact not_or.2 ⟨hnot, fun h => hne h.1⟩
  cases h with
  | @emit e quiet =>
      have hins : (a.emit e).insertions = a.insertions := by
        rw [emit_insertions, quiet.1]
        rfl
      cases hu with
      | waits hins' hstack hmem => exact Underway.waits (hins.trans hins') hstack hmem
      | judged hins' hstack hverdict =>
          exact Underway.judged (hins.trans hins') hstack hverdict
  | push receive => exact receive.elim
  | @drop before rest it stack late =>
      have hwaiting := (hstacked it (by rw [stack]; simp)).2
      exact absurd late (htimely.not_late hd.time hwaiting)
  | @resolve c before rest it data' endorseVerified stack ready data_eq endorse added =>
      have hit : it ∈ a.syncStack := by rw [stack]; simp
      cases hu with
      | judged _ hstack _ => exact absurd ready (hwaits it (hstack it hit))
      | waits hins hstack hmem =>
          rcases hstack it hit with hold | rfl
          · exact absurd ready (hwaits it hold)
          -- the record of the packet is judged
          obtain rfl : data = data' :=
            Option.some.inj ((Record.ofData_eq_ok hdec).2.1.symm.trans data_eq)
          obtain ⟨n, marked, names, mid, hinserted, hn⟩ :=
            hs.inv.ledgerHeld.inserted_stack hit ready added
          have hverdict := hv.endorse_iff hsmall hstarted hS hs hd hdec ready endorse
          rw [hins] at hverdict
          refine Underway.judged ?_ (fun it' hit' => ?_) hverdict
          · rw [withStack_insertions, hinserted.insertions_eq, hins]
          · have hmem' : it' ∈ a.syncStack := by
              rw [stack]
              exact ((List.Sublist.refl before).append (List.sublist_cons_self _ rest)).subset hit'
            refine (hstack it' hmem').resolve_right ?_
            rintro rfl
            exact hs.inv.stack.name_ne stack hit' rfl

/-- So does the whole loop. -/
theorem Underway.receiveMoves (hd : Delivery P s₀ S accepts times amb data)
    (hdec : Record.ofData P.ndn data = .ok record)
    (hmissing : ∀ it ∈ s.syncStack, ∃ p ∈ it.1.recordPointers,
      p ≠ P.ndn.fullName data ∧ p ∉ endorsedNames P.ndn s.insertions)
    (hu : Underway P s record amb.now
      (AdmitsName P s₀ S accepts (endorsedNames P.ndn s.insertions) (P.ndn.fullName data)) a)
    (hv : Verdicts P s₀ S times a) (hs : Healthy P a) (hstacked : Stacked S times a)
    (h : ReceiveMoves P amb (fun _ => False) a b) :
    Underway P s record amb.now
      (AdmitsName P s₀ S accepts (endorsedNames P.ndn s.insertions) (P.ndn.fullName data)) b := by
  induction h with
  | refl => exact hu
  | tail hmoves hmove ih =>
      obtain ⟨hv', hs', hstacked'⟩ := hv.receiveMoves hpos hsmall hstarted hS htimely
        (fun d hfalse => hfalse.elim) hd hs hstacked hmoves
      exact ih.receiveMove hsmall hstarted hS htimely hd hdec hmissing hv' hs' hstacked' hmove

end Calls

/-! ## Calls -/

/-- A ledger that has judged the records of these names, one after another. -/
structure Judged (P : Peer σ) (s₀ : LedgerImpl σ) (S : Finset Data) (accepts : Data → Bool)
    (times : List Int) (before : List Name) (s : LedgerImpl σ) : Prop where
  verdicts : Verdicts P s₀ S times s
  healthy : Healthy P s
  quiescent : Quiescent P s
  parents : ∀ n ∈ before, ∀ p, Parent P.ndn S n p → p ∈ s₀.tailing ∨ p ∈ before
  inserted : ∀ ins ∈ s.insertions,
    ins.1.getRecordName P.ndn ∈ s₀.tailing ∨ ins.1.getRecordName P.ndn ∈ before
  stacked : Stacked S times s
  waiting : ∀ it ∈ s.syncStack, it.1.getRecordName P.ndn ∈ before
  endorsed : endorsedNames P.ndn s.insertions = admittedNames P s₀ S accepts before

theorem Started.judged {accepts : Data → Bool} (h : Started P start s₀)
    (htime : start.now ∈ times) : Judged P s₀ S accepts times [] s₀ := by
  have hstack : ∀ it, it ∉ s₀.syncStack := by
    rw [h.syncStack]
    exact fun it => List.not_mem_nil
  refine ⟨h.verdicts htime, h.healthy, fun it hit => absurd hit (hstack it), by simp,
    fun ins hins => ?_, fun it hit => absurd hit (hstack it), fun it hit => absurd hit (hstack it),
    ?_⟩
  · obtain ⟨t, ht, _⟩ := h.placed.inserted ins hins
    exact Or.inl ⟨t, ht⟩
  · ext n
    constructor
    · rintro ⟨r, hr, rfl⟩
      obtain ⟨t, ht, _⟩ := h.placed.inserted _ hr
      exact ⟨t, ht⟩
    · rintro ⟨t, ht⟩
      exact ((h.verdicts (S := S) htime).endorsed_iff h.healthy ht).1 (h.endorsed n t ht)

namespace Judged

variable {accepts : Data → Bool} {before : List Name} {data : Data}
  (hj : Judged P s₀ S accepts times before s) (hS : Generics P.ndn S)
include hj hS

/-- A record that waits misses one that is not endorsed, although it has been judged. -/
theorem misses {it : Record × Int} (hit : it ∈ s.syncStack) : ∃ p ∈ it.1.recordPointers,
    (p ∈ s₀.tailing ∨ p ∈ before) ∧ p ∉ endorsedNames P.ndn s.insertions := by
  obtain ⟨d, hd, hdata⟩ := (hj.stacked it hit).1
  obtain ⟨n, hn, _⟩ := hj.healthy.inv.stack.waiting it hit
  obtain ⟨hdec, hname⟩ := hn.ofData_eq hdata
  have htype := (Record.ofData_eq_ok hdec).2.2.1.trans (hS.generic d hd)
  obtain ⟨p, hp, hnot⟩ := hj.verdicts.exists_missing hj.healthy htype (hj.quiescent it hit)
  refine ⟨p, hp, hj.parents _ (hj.waiting it hit) p ⟨d, hd, ?_, _, hdec, hp⟩, hnot⟩
  rw [hn.getRecordName, hname]

variable (hnew : P.ndn.fullName data ∉ s₀.tailing ∧ P.ndn.fullName data ∉ before)
include hnew

/-- What the records that wait miss is not the new one. -/
theorem missing {it : Record × Int} (hit : it ∈ s.syncStack) : ∃ p ∈ it.1.recordPointers,
    p ≠ P.ndn.fullName data ∧ p ∉ endorsedNames P.ndn s.insertions := by
  obtain ⟨p, hp, hknown, hnot⟩ := hj.misses hS hit
  refine ⟨p, hp, ?_, hnot⟩
  rintro rfl
  exact hknown.elim hnew.1 hnew.2

variable (hpos : 1 ≤ P.config.confirmWeight) (hsmall : P.config.SmallWeights)
  (hstarted : Started P start s₀) (htimely : Timely P.config times)
include hpos hsmall hstarted htimely

/-- A new packet joins the stack, and the loop may judge its record. -/
theorem underway (hd : Delivery P s₀ S accepts times amb data)
    (hrun : LedgerImpl.onFetchedRecord P amb data s = (s', .ok ())) :
    ∃ record, Record.ofData P.ndn data = .ok record ∧ Quiescent P s' ∧
      Underway P s record amb.now
        (AdmitsName P s₀ S accepts (endorsedNames P.ndn s.insertions) (P.ndn.fullName data)) s' ∧
      Verdicts P s₀ S times s' ∧ Healthy P s' ∧ Stacked S times s' := by
  have hunseen : s.seenRecord P (P.ndn.fullName data) = false := by
    rw [← Bool.not_eq_true, hj.verdicts.seenRecord_iff hj.healthy]
    rintro ⟨ins, hins, hname⟩
    have hknown := hj.inserted ins hins
    rw [hname] at hknown
    exact hknown.elim hnew.1 hnew.2
  have hunstacked : ∀ it ∈ s.syncStack, it.1.getRecordName P.ndn ≠ P.ndn.fullName data :=
    fun it hit hname => hnew.2 (hname ▸ hj.waiting it hit)
  have hcheck : checkSyntaxValidityOfRecord P amb data s = .ok true :=
    (checkSyntaxValidityOfRecord_congr hj.verdicts.certManager data).trans hd.checked
  obtain ⟨record, hdec⟩ := checkSyntaxValidityOfRecord_decoded hcheck
  have htype := (Record.ofData_eq_ok hdec).2.2.1.trans (hS.generic data hd.mem)
  -- the stack is quiescent again, whatever the loop has judged
  refine ⟨record, hdec, ?_, ?_⟩
  · refine onFetchedRecord_quiescent (fun r hr _ hcert => ?_) hj.quiescent hrun
    rw [hdec] at hr
    cases hr
    rw [htype] at hcert
    cases hcert
  have hr : Receivable P amb data record s :=
    ⟨hdec, by rw [htype]; decide, hcheck, hunseen, hunstacked⟩
  obtain ⟨hverdicts, hhealthy, hstacked⟩ := hj.verdicts.receiveMoves hpos hsmall hstarted hS
    htimely (fun d hmem => hmem) hd hj.healthy hj.stacked (hr.moves hd.mem)
  have hunderway : Underway P s record amb.now
      (AdmitsName P s₀ S accepts (endorsedNames P.ndn s.insertions) (P.ndn.fullName data))
      (received P amb.now record s) := by
    refine Underway.waits received_sameRecords.insertions (fun it hit => ?_)
      (List.mem_append_right _ List.mem_cons_self)
    exact (List.mem_append.1 hit).imp_right List.mem_singleton.1
  rw [hr.onFetchedRecord_eq] at hrun
  split_ifs at hrun
  · -- the moves of the loop receive nothing more
    have hscan : ReceiveMoves P amb (fun _ => False) (received P amb.now record s) s' :=
      rescanStack_moves hrun
    refine ⟨hunderway.receiveMoves hpos hsmall hstarted hS htimely hd hdec
      (fun it hit => hj.missing hS hnew hit) hverdicts hhealthy hstacked hscan, ?_⟩
    exact hverdicts.receiveMoves hpos hsmall hstarted hS htimely
      (fun d hfalse => hfalse.elim) hd hhealthy hstacked hscan
  · cases hrun
    exact ⟨hunderway, hverdicts, hhealthy, hstacked⟩

/-- **A received packet is judged by what is endorsed when it arrives.** -/
theorem onFetchedRecord (hd : Delivery P s₀ S accepts times amb data)
    (hparents : ∀ p, Parent P.ndn S (P.ndn.fullName data) p → p ∈ s₀.tailing ∨ p ∈ before)
    (hrun : LedgerImpl.onFetchedRecord P amb data s = (s', .ok ())) :
    Judged P s₀ S accepts times (before ++ [P.ndn.fullName data]) s' := by
  obtain ⟨record, hdec, hquiescent, hunderway, hverdicts, hhealthy, hstacked⟩ :=
    hj.underway hS hnew hpos hsmall hstarted htimely hd hrun
  have htype := (Record.ofData_eq_ok hdec).2.2.1.trans (hS.generic data hd.mem)
  have hname : record.getRecordName P.ndn = P.ndn.fullName data :=
    Record.getRecordName_of_ofData hdec
  have hold : ∀ {x : Name}, x ∈ before → x ∈ before ++ [P.ndn.fullName data] :=
    fun hx => List.mem_append_left _ hx
  have hlast : P.ndn.fullName data ∈ before ++ [P.ndn.fullName data] :=
    List.mem_append_right _ (List.mem_singleton_self _)
  have hwaiting : ∀ it, it ∈ s.syncStack ∨ it = (record, amb.now) →
      it.1.getRecordName P.ndn ∈ before ++ [P.ndn.fullName data] := by
    rintro it (hit | rfl)
    · exact hold (hj.waiting it hit)
    · exact hname ▸ hlast
  have hparents' : ∀ n ∈ before ++ [P.ndn.fullName data], ∀ p, Parent P.ndn S n p →
      p ∈ s₀.tailing ∨ p ∈ before ++ [P.ndn.fullName data] := by
    intro n hn p hp
    rcases List.mem_append.1 hn with hn | hn
    · exact (hj.parents n hn p hp).imp_right hold
    · rw [List.mem_singleton.1 hn] at hp
      exact (hparents p hp).imp_right hold
  have hinserted : ∀ ins ∈ s.insertions, ins.1.getRecordName P.ndn ∈ s₀.tailing ∨
      ins.1.getRecordName P.ndn ∈ before ++ [P.ndn.fullName data] :=
    fun ins hins => (hj.inserted ins hins).imp_right hold
  cases hunderway with
  | waits hins hstack hmem =>
      refine ⟨hverdicts, hhealthy, hquiescent, hparents', ?_, hstacked,
        fun it hit => hwaiting it (hstack it hit), ?_⟩
      · rw [hins]
        exact hinserted
      -- one of its pointers is not endorsed
      have hnot : ¬ AdmitsName P s₀ S accepts (endorsedNames P.ndn s.insertions)
          (P.ndn.fullName data) := by
        rintro ⟨_, hall⟩
        obtain ⟨p, hp, hnot⟩ := hverdicts.exists_missing hhealthy htype (hquiescent _ hmem)
        rw [hins] at hnot
        exact hnot (hall p ⟨data, hd.mem, rfl, record, hdec, hp⟩).1
      ext n
      rw [hins, mem_admittedNames_concat, ← hj.endorsed]
      exact (or_iff_left fun h => hnot h.2).symm
  | judged hins hstack hverdict =>
      refine ⟨hverdicts, hhealthy, hquiescent, hparents', ?_, hstacked,
        fun it hit => hwaiting it (Or.inl (hstack it hit)), ?_⟩
      · rw [hins]
        intro ins hins'
        rcases List.mem_cons.1 hins' with rfl | hins'
        · rw [hname]
          exact Or.inr hlast
        · exact hinserted ins hins'
      ext n
      rw [hins, mem_endorsedNames_cons, hname, hverdict, mem_admittedNames_concat, ← hj.endorsed]

omit hnew in
/-- **The call returns** where no name of the set ends with a digest and every signature is
judged. -/
theorem onFetchedRecord_returns
    (hnames : ∀ d ∈ S, RecordName.hasImplicitDigest d.name = false)
    (hsigned : ∀ d ∈ S, ∃ signed,
      P.certManager.endorseSignature s₀.certManager d = .ok signed)
    (hd : Delivery P s₀ S accepts times amb data) :
    (LedgerImpl.onFetchedRecord P amb data s).2 = .ok () := by
  have htraced : Traced P amb (fun d => d ∈ S) s (LedgerImpl.onFetchedRecord P amb data s) :=
    onFetchedRecord_traced s hd.mem
  rcases hrun : (LedgerImpl.onFetchedRecord P amb data s).2 with f | ⟨⟨⟩⟩
  · obtain ⟨a, it, hmoves, hit, hcheck⟩ := htraced.raised f hrun
    obtain ⟨hverdicts, hhealthy, hstacked⟩ := hj.verdicts.receiveMoves hpos hsmall hstarted hS
      htimely (fun d hmem => hmem) hd hj.healthy hj.stacked hmoves
    obtain ⟨d, hmem, hdata⟩ := (hstacked it hit).1
    obtain ⟨n, hn, _⟩ := hhealthy.inv.stack.waiting it hit
    have hdec := (hn.ofData_eq hdata).1
    have hnot : it.1.type ≠ .certificateRecord := by
      rw [(Record.ofData_eq_ok hdec).2.2.1, hS.generic d hmem]
      simp
    have hname : RecordName.check (P.ndn.fullName d) = .ok () :=
      RecordName.check_concat _ (Record.ofData_eq_ok hdec).1 (hnames d hmem)
    refine absurd hcheck (hhealthy.inv.checkRecordAncestor_ok hit hdata hname (if_neg hnot)
      (fun _ => ?_) f)
    obtain ⟨signed, hsigned⟩ := hsigned d hmem
    rw [← hverdicts.certManager] at hsigned
    exact ⟨_, checkEndorseValidityOfRecord_eq hdec hsigned⟩
  · rfl

end Judged

/-! ## What is confirmed -/

/-- **The database holds the endorsed records that are heavy enough.** -/
theorem Verdicts.getRecord_iff (hv : Verdicts P s₀ S times s) (hs : Healthy P s)
    (hstarted : Started P start s₀) (hS : Generics P.ndn S) (hsmall : P.config.SmallWeights)
    (n : Name) : (∃ d, s.backend.getRecord P.ndn n = some d) ↔
      n ∈ endorsedNames P.ndn s.insertions ∧
        P.config.confirmWeight ≤ (countedProducers P.ndn S s.insertions n).encard := by
  have hcard : ∀ t, s.tailRecords[n]? = some t →
      (P.config.confirmWeight ≤ (countedProducers P.ndn S s.insertions n).encard ↔
        P.config.confirmWeight ≤ t.refSet.card) := by
    intro t ht
    rw [← hv.coe_refSet hs hstarted hS ht, Set.encard_coe_eq_coe_finsetCard, Nat.cast_le]
  constructor
  · rintro ⟨d, hd⟩
    have hendorsed := hv.stored n d hd
    refine ⟨hendorsed, ?_⟩
    cases ht : s.tailRecords[n]? with
    | some t => exact (hcard t ht).2 (hs.database.heavy n t d ht hd)
    | none =>
        obtain ⟨r, hr, rfl⟩ := hendorsed
        rcases hv.kept _ hr with ⟨t, ht'⟩ | ⟨_, _, hdeep⟩
        · rw [ht] at ht'
          cases ht'
        · exact (Nat.cast_le.2 hsmall.confirmWeight_le).trans hdeep
  · rintro ⟨⟨r, hr, rfl⟩, hheavy⟩
    rcases hv.kept _ hr with ⟨t, ht⟩ | ⟨_, hd, _⟩
    · obtain ⟨d, hd, _⟩ := (hs.inv.tail.sound.named _ t ht).exists_data
      exact ⟨d, (hs.inv.tail.confirmed _ t ht ((hcard t ht).1 hheavy)).trans hd⟩
    · exact hd

end LedgerImpl

end DLedger
