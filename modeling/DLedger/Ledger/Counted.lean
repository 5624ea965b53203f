import DLedger.Ledger.Stored

set_option autoImplicit false

/-! # What the reference sets count

The log of insertions says what every reference set should be: `Counts` is this intent, in
terms of the inserted records and their pointers alone. The walk of the source sees less, as
it stops at records that have left the tail and at producers that are counted already. `Exact`
says that it counts the same.
-/

namespace DLedger

open Tlv (Bytes Block)

section Abstract

variable (ndn : Ndn) (log : List (Record × Bool))

/-- The insertions since a name was last inserted, newest first. -/
def since (n : Name) : List (Record × Bool) :=
  log.takeWhile fun ins => ins.1.getRecordName ndn ≠ n

/-- A pointer of an inserted record. -/
def PointsTo (n m : Name) : Prop :=
  ∃ ins ∈ log, ins.1.getRecordName ndn = n ∧ m ∈ ins.1.recordPointers

/-- A producer that a record should count: that of a record that was inserted as endorsed
since, that reaches the record by one or more pointers, and that has another producer. -/
def Counts (n a : Name) : Prop :=
  ∃ r, (r, true) ∈ since ndn log n ∧
    Relation.TransGen (PointsTo ndn log) (r.getRecordName ndn) n ∧
    a = RecordName.getProducerPrefix (r.getRecordName ndn) ∧ a ≠ RecordName.getProducerPrefix n

/-- The packets of the inserted records. -/
def insertedData : Set Data := {d | ∃ ins ∈ log, ins.1.data = some d}

/-- The inserted records are decoded packets, and so is what they point to. -/
structure Logged : Prop where
  named : ∀ ins ∈ log, ∃ n, Record.Named ndn n ins.1
  target : ∀ n m, PointsTo ndn log n m → ∃ ins ∈ log, ins.1.getRecordName ndn = m

variable {ndn log}

theorem since_subset {n : Name} {ins : Record × Bool} (h : ins ∈ since ndn log n) : ins ∈ log :=
  (List.takeWhile_sublist _).subset h

theorem since_cons_self {ins : Record × Bool} {n : Name} (h : ins.1.getRecordName ndn = n) :
    since ndn (ins :: log) n = [] := by
  simp [since, h]

theorem since_cons_of_ne {ins : Record × Bool} {n : Name} (h : ins.1.getRecordName ndn ≠ n) :
    since ndn (ins :: log) n = ins :: since ndn log n := by
  simp [since, h]

theorem pointsTo_cons {ins : Record × Bool} {n m : Name} : PointsTo ndn (ins :: log) n m ↔
    (ins.1.getRecordName ndn = n ∧ m ∈ ins.1.recordPointers) ∨ PointsTo ndn log n m := by
  simp [PointsTo]

/-- Where equal names come with equal packets, full names do not collide. -/
theorem injOn_insertedData (h : ∀ ins ∈ log, ∀ ins' ∈ log,
    ins.1.getRecordName ndn = ins'.1.getRecordName ndn → ins.1.data = ins'.1.data) :
    Set.InjOn ndn.fullName (insertedData log) := by
  rintro d ⟨ins, hins, hd⟩ d' ⟨ins', hins', hd'⟩ heq
  have hdata := h ins hins ins' hins' (by
    rw [Record.getRecordName, Record.getRecordName, hd, hd']
    exact heq)
  rw [hd, hd'] at hdata
  exact Option.some.inj hdata

/-- Without collisions, inserted records of one name are one record. -/
theorem Logged.record_eq (h : Logged ndn log) (hinj : Set.InjOn ndn.fullName (insertedData log))
    {ins ins' : Record × Bool} (hins : ins ∈ log) (hins' : ins' ∈ log)
    (heq : ins.1.getRecordName ndn = ins'.1.getRecordName ndn) : ins.1 = ins'.1 := by
  obtain ⟨n, hn⟩ := h.named ins hins
  obtain ⟨m, hm⟩ := h.named ins' hins'
  rw [hn.getRecordName, hm.getRecordName] at heq
  subst heq
  obtain ⟨d, hd, hname⟩ := hn.exists_data
  obtain ⟨d', hd', hname'⟩ := hm.exists_data
  have hdd : d = d' := hinj ⟨ins, hins, hd⟩ ⟨ins', hins', hd'⟩ (hname.trans hname'.symm)
  subst hdd
  have hdec := (hn.ofData_eq hd).1
  rw [(hm.ofData_eq hd').1] at hdec
  exact (Except.ok.inj hdec).symm

/-- A new insertion adds no pointer to a record that was inserted before. -/
theorem Logged.pointsTo_of_cons {ins : Record × Bool} (h : Logged ndn (ins :: log))
    (hinj : Set.InjOn ndn.fullName (insertedData (ins :: log))) {n m : Name}
    (hn : ∃ old ∈ log, old.1.getRecordName ndn = n) (hnm : PointsTo ndn (ins :: log) n m) :
    PointsTo ndn log n m := by
  rcases pointsTo_cons.1 hnm with ⟨hname, hm⟩ | hnm
  · obtain ⟨old, hold, rfl⟩ := hn
    have heq := h.record_eq hinj List.mem_cons_self (List.mem_cons_of_mem _ hold) hname
    exact ⟨old, hold, rfl, heq ▸ hm⟩
  · exact hnm

/-- So it adds no path from one. -/
theorem Logged.transGen_of_cons {ins : Record × Bool} (h : Logged ndn (ins :: log))
    (h₀ : Logged ndn log) (hinj : Set.InjOn ndn.fullName (insertedData (ins :: log)))
    {n m : Name} (hn : ∃ old ∈ log, old.1.getRecordName ndn = n) :
    Relation.TransGen (PointsTo ndn (ins :: log)) n m ↔
      Relation.TransGen (PointsTo ndn log) n m := by
  constructor
  · intro hnm
    induction hnm with
    | single hnm => exact Relation.TransGen.single (h.pointsTo_of_cons hinj hn hnm)
    | tail _ hlast ih =>
        obtain ⟨c, _, hc⟩ := Relation.TransGen.tail'_iff.1 ih
        exact ih.tail (h.pointsTo_of_cons hinj (h₀.target _ _ hc) hlast)
  · exact Relation.TransGen.mono (fun _ _ hab => pointsTo_cons.2 (Or.inr hab)) n m

theorem insertedData_cons {ins : Record × Bool} : insertedData log ⊆ insertedData (ins :: log) := by
  rintro d ⟨old, hold, hd⟩
  exact ⟨old, List.mem_cons_of_mem _ hold, hd⟩

/-! ### Logs in which no name is inserted twice -/

variable (ndn) in
/-- Each insertion has a name of its own, and its pointers were inserted before it. -/
def Ordered : List (Record × Bool) → Prop
  | [] => True
  | ins :: log => (∀ old ∈ log, old.1.getRecordName ndn ≠ ins.1.getRecordName ndn) ∧
      (∀ p ∈ ins.1.recordPointers, ∃ old ∈ log, old.1.getRecordName ndn = p) ∧ Ordered log

namespace Ordered

/-- Insertions of one name are one insertion. -/
theorem eq_of_name (h : Ordered ndn log) {ins ins' : Record × Bool} (hins : ins ∈ log)
    (hins' : ins' ∈ log) (heq : ins.1.getRecordName ndn = ins'.1.getRecordName ndn) :
    ins = ins' := by
  induction log with
  | nil => cases hins
  | cons first log ih =>
      obtain ⟨hnew, _, hlog⟩ := h
      rcases List.mem_cons.1 hins with rfl | hold
      · rcases List.mem_cons.1 hins' with rfl | hold'
        · rfl
        · exact absurd heq.symm (hnew ins' hold')
      · rcases List.mem_cons.1 hins' with rfl | hold'
        · exact absurd heq (hnew ins hold)
        · exact ih hlog hold hold'

theorem injOn_insertedData (h : Ordered ndn log) : Set.InjOn ndn.fullName (insertedData log) :=
  DLedger.injOn_insertedData fun ins hins ins' hins' heq => by
    rw [h.eq_of_name hins hins' heq]

theorem target (h : Ordered ndn log) {ins : Record × Bool} (hins : ins ∈ log) {p : Name}
    (hp : p ∈ ins.1.recordPointers) : ∃ old ∈ log, old.1.getRecordName ndn = p := by
  induction log with
  | nil => cases hins
  | cons first log ih =>
      obtain ⟨_, hpointers, hlog⟩ := h
      have hold : ∃ old ∈ log, old.1.getRecordName ndn = p := by
        rcases List.mem_cons.1 hins with rfl | hins
        · exact hpointers p hp
        · exact ih hlog hins
      obtain ⟨old, hmem, hname⟩ := hold
      exact ⟨old, List.mem_cons_of_mem _ hmem, hname⟩

/-- A path from a record that was inserted before is a path of what was inserted before. -/
theorem path_of_cons {ins : Record × Bool} (h : Ordered ndn (ins :: log)) {c n : Name}
    (hc : ∃ old ∈ log, old.1.getRecordName ndn = c)
    (hpath : Relation.TransGen (PointsTo ndn (ins :: log)) c n) :
    Relation.TransGen (PointsTo ndn log) c n := by
  obtain ⟨hnew, _, hlog⟩ := h
  have hstep : ∀ c p, (∃ old ∈ log, old.1.getRecordName ndn = c) →
      PointsTo ndn (ins :: log) c p → PointsTo ndn log c p := by
    rintro c p ⟨old, hold, hname⟩ hcp
    rcases pointsTo_cons.1 hcp with ⟨hhead, _⟩ | hcp
    · exact absurd (hname.trans hhead.symm) (hnew old hold)
    · exact hcp
  induction hpath with
  | single hcp => exact Relation.TransGen.single (hstep _ _ hc hcp)
  | tail _ hlast ih =>
      obtain ⟨b, _, old, hold, _, hp⟩ := Relation.TransGen.tail'_iff.1 ih
      exact ih.tail (hstep _ _ (hlog.target hold hp) hlast)

/-- **What reaches a record was inserted after it.** -/
theorem mem_since (h : Ordered ndn log) {ins : Record × Bool} (hins : ins ∈ log) {n : Name}
    (hpath : Relation.TransGen (PointsTo ndn log) (ins.1.getRecordName ndn) n) :
    ins ∈ since ndn log n := by
  induction log with
  | nil => cases hins
  | cons first log ih =>
      have hne : first.1.getRecordName ndn ≠ n := by
        rintro rfl
        obtain ⟨c, _, old, hold, _, hp⟩ := Relation.TransGen.tail'_iff.1 hpath
        -- the newest record is no pointer
        have htarget : ∃ old ∈ log, old.1.getRecordName ndn = first.1.getRecordName ndn := by
          rcases List.mem_cons.1 hold with rfl | hold
          · exact h.2.1 _ hp
          · exact h.2.2.target hold hp
        obtain ⟨old', hold', hname⟩ := htarget
        exact h.1 old' hold' hname
      rw [since_cons_of_ne hne]
      rcases List.mem_cons.1 hins with rfl | hins
      · exact List.mem_cons_self
      · exact List.mem_cons_of_mem _ (ih h.2.2 hins (h.path_of_cons ⟨ins, hins, rfl⟩ hpath))

/-- So a record counts the producers of all endorsed records that reach it. -/
theorem counts_iff (h : Ordered ndn log) {n a : Name} : Counts ndn log n a ↔
    a ≠ RecordName.getProducerPrefix n ∧ ∃ r, (r, true) ∈ log ∧
      RecordName.getProducerPrefix (r.getRecordName ndn) = a ∧
      Relation.TransGen (PointsTo ndn log) (r.getRecordName ndn) n := by
  constructor
  · rintro ⟨r, hr, hpath, hproducer, hother⟩
    exact ⟨hother, r, since_subset hr, hproducer.symm, hpath⟩
  · rintro ⟨hother, r, hr, hproducer, hpath⟩
    exact ⟨r, h.mem_since hr hpath, hpath, hproducer.symm, hother⟩

end Ordered

end Abstract

namespace LedgerImpl

variable {σ : Type} {P : Peer σ} {amb : Ambient} {s s' : LedgerImpl σ} {record : Record}
  {endorseVerified : Bool} {n : Name} {marked : Finset Name} {names : List Name} {mid : TailMap}

/-- Every record of the ledger was inserted, and the reference sets count what they should. -/
structure Exact (P : Peer σ) (s : LedgerImpl σ) : Prop where
  logged : Logged P.ndn s.insertions
  tail : ∀ (n : Name) (t : TailingRecordState), s.tailRecords[n]? = some t →
    (t.record, t.recordEndorseVerified) ∈ s.insertions
  stored : ∀ (n : Name) (d : Data) (r : Record), s.backend.getRecord P.ndn n = some d →
    Record.ofData P.ndn d = .ok r → ∃ e, (r, e) ∈ s.insertions
  refSet : Set.InjOn P.ndn.fullName (insertedData s.insertions) →
    ∀ (n : Name) (t : TailingRecordState), s.tailRecords[n]? = some t →
      ∀ a, a ∈ t.refSet ↔ Counts P.ndn s.insertions n a

/-- What is not in the tail after the walk was not in it, and is not the new record. -/
theorem Added.walked_eq_none (h : Added P amb record endorseVerified n s s' marked names mid)
    {x : Name} (hx : walked amb record endorseVerified n s.tailRecords.lookup marked x = none) :
    n ≠ x ∧ s.tailRecords[x]? = none := by
  have hne : n ≠ x := by
    rintro rfl
    rw [h.walked_self] at hx
    cases hx
  rw [Added.walked_of_ne hne, Option.map_eq_none_iff] at hx
  exact ⟨hne, hx⟩

/-- A record with a name in the tail or in the database was inserted. -/
theorem Exact.inserted_of_held (hx : Exact P s) (hs : TailInv P s) (hst : Stored P s) {p : Name}
    (hp : (∃ u, s.tailRecords[p]? = some u) ∨ ∃ d, s.backend.getRecord P.ndn p = some d) :
    ∃ ins ∈ s.insertions, ins.1.getRecordName P.ndn = p := by
  rcases hp with ⟨u, hu⟩ | ⟨d, hd⟩
  · exact ⟨_, hx.tail p u hu, (hs.sound.named p u hu).getRecordName⟩
  · obtain ⟨r, hr, hname, _⟩ := hst.decoded p d hd
    obtain ⟨e, he⟩ := hx.stored p d r hd hr
    exact ⟨_, he, (Record.getRecordName_of_ofData hr).trans hname⟩

/-- The log after an insertion is a log of decoded packets. -/
theorem Exact.logged_cons (hx : Exact P s) (hs : TailInv P s) (hst : Stored P s)
    (h : Inserted P amb record endorseVerified n s s' marked names mid) :
    Logged P.ndn ((record, endorseVerified) :: s.insertions) where
  named ins hins := by
    rcases List.mem_cons.1 hins with rfl | hins
    · exact ⟨n, h.ready.named⟩
    · exact hx.logged.named ins hins
  target c m hcm := by
    rcases pointsTo_cons.1 hcm with ⟨_, hm⟩ | hcm
    · obtain ⟨ins, hins, hname⟩ := hx.inserted_of_held hs hst (h.held m hm)
      exact ⟨ins, List.mem_cons_of_mem _ hins, hname⟩
    · obtain ⟨ins, hins, hname⟩ := hx.logged.target c m hcm
      exact ⟨ins, List.mem_cons_of_mem _ hins, hname⟩

/-- A path of the walk is a path of pointers. -/
theorem Exact.transGen_of_marked (hx : Exact P s) (hs : TailInv P s)
    (h : Inserted P amb record endorseVerified n s s' marked names mid) {x : Name}
    (hm : x ∈ marked) :
    Relation.TransGen (PointsTo P.ndn ((record, endorseVerified) :: s.insertions)) n x := by
  refine Relation.TransGen.mono (fun c p hcp => ?_) n x ((h.mem_marked x).1 hm).2
  obtain ⟨_, t, ht, hp⟩ := mem_header.1 hcp.1
  unfold insertedLookup at ht
  split_ifs at ht with hc
  · cases ht
    exact pointsTo_cons.2 (Or.inl ⟨hc ▸ h.ready.named.getRecordName, hp⟩)
  · exact pointsTo_cons.2 (Or.inr ⟨_, hx.tail c t ht, (hs.sound.named c t ht).getRecordName, hp⟩)

/-- The entries after the walk are of inserted records, with their endorsement. -/
theorem Exact.walked_logged (hx : Exact P s)
    (h : Added P amb record endorseVerified n s s' marked names mid) {x : Name}
    {t : TailingRecordState}
    (ht : walked amb record endorseVerified n s.tailRecords.lookup marked x = some t) :
    (t.record, t.recordEndorseVerified) ∈ (record, endorseVerified) :: s.insertions := by
  rcases h.walked_cases ht with ⟨_, rfl⟩ | ⟨_, u, hu, rfl⟩
  · exact List.mem_cons_self
  · rw [ite_mark_record, ite_mark_recordEndorseVerified]
    exact List.mem_cons_of_mem _ (hx.tail x u hu)

/-- Their pointers were in the tail or in the database. -/
theorem Inserted.walked_held (h : Inserted P amb record endorseVerified n s s' marked names mid)
    (hs : TailInv P s) {x : Name} {t : TailingRecordState}
    (ht : walked amb record endorseVerified n s.tailRecords.lookup marked x = some t) :
    ∀ p ∈ t.record.recordPointers,
      (∃ u, s.tailRecords[p]? = some u) ∨ ∃ d, s.backend.getRecord P.ndn p = some d := by
  intro p hp
  rcases h.walked_cases ht with ⟨_, rfl⟩ | ⟨_, u, hu, rfl⟩
  · exact h.held p hp
  · rw [ite_mark_record] at hp
    exact hs.held x u hu p hp

/-- **What an endorsed new record reaches is covered by its producer, or has left the tail.**
The induction is on the path; it stays outside of the tail once it has left it. -/
theorem Exact.covers_of_path (hx : Exact P s) (hs : TailInv P s) (hst : Stored P s)
    (h : Inserted P amb record true n s s' marked names mid)
    (hinj : Set.InjOn P.ndn.fullName (insertedData ((record, true) :: s.insertions))) {x : Name}
    (hpath : Relation.ReflTransGen (PointsTo P.ndn ((record, true) :: s.insertions)) n x) :
    (∃ t, walked amb record true n s.tailRecords.lookup marked x = some t ∧
      t.recordEndorseVerified = true ∧ Covers (RecordName.getProducerPrefix n) x t) ∨
    (walked amb record true n s.tailRecords.lookup marked x = none ∧
      ∃ d, s.backend.getRecord P.ndn x = some d) := by
  have hlog := hx.logged_cons hs hst h
  have hsound := h.sound hs.sound h.ready h.genesis
  induction hpath with
  | refl => exact Or.inl ⟨_, h.walked_self, rfl, Or.inr rfl⟩
  | @tail c p _ hcp ih =>
      obtain ⟨ins, hins, hname, hp⟩ := hcp
      rcases ih with ⟨t, ht, he, hcov⟩ | ⟨hc, d, hd⟩
      · have heq := hlog.record_eq hinj hins (hx.walked_logged h.toAdded ht)
          (hname.trans (h.named c t ht).getRecordName.symm)
        rw [heq] at hp
        cases hu : walked amb record true n s.tailRecords.lookup marked p with
        | some u => exact Or.inl ⟨u, rfl, hsound.pointer c t ht he p hp u hu,
            hsound.closed c t ht he p hp u hu _ hcov⟩
        | none =>
            rcases h.walked_held hs ht p hp with ⟨u, htail⟩ | hback
            · rw [(h.walked_eq_none hu).2] at htail
              cases htail
            · exact Or.inr ⟨rfl, hback⟩
      · obtain ⟨r, hr, hrname, hheld⟩ := hst.decoded c d hd
        obtain ⟨e, hre⟩ := hx.stored c d r hd hr
        have heq := hlog.record_eq hinj hins (List.mem_cons_of_mem _ hre)
          (hname.trans ((Record.getRecordName_of_ofData hr).trans hrname).symm)
        rw [heq] at hp
        obtain ⟨d', hd'⟩ := hheld p hp
        have hne : n ≠ p := by
          rintro rfl
          rw [h.unstored] at hd'
          cases hd'
        refine Or.inr ⟨?_, d', hd'⟩
        rw [Added.walked_of_ne hne, hst.below c d r hd hr (h.walked_eq_none hc).2 p hp]
        rfl

/-- **The walk counts a producer exactly where it should be counted.** -/
theorem Exact.counts_cons (hx : Exact P s) (hs : TailInv P s) (hst : Stored P s)
    (h : Inserted P amb record endorseVerified n s s' marked names mid)
    (hinj : Set.InjOn P.ndn.fullName
      (insertedData ((record, endorseVerified) :: s.insertions))) {x : Name}
    {t : TailingRecordState}
    (ht : walked amb record endorseVerified n s.tailRecords.lookup marked x = some t) (a : Name) :
    a ∈ t.refSet ↔ Counts P.ndn ((record, endorseVerified) :: s.insertions) x a := by
  have hlog := hx.logged_cons hs hst h
  have hname := h.ready.named.getRecordName
  rcases h.walked_cases ht with ⟨rfl, rfl⟩ | ⟨hne, u, hu, rfl⟩
  · -- nothing was inserted since
    have hsince : since P.ndn ((record, endorseVerified) :: s.insertions) n = [] :=
      since_cons_self hname
    simp only [newEntry, Finset.notMem_empty, Counts, hsince, List.not_mem_nil, false_and,
      exists_false]
  have hold := hx.refSet (hinj.mono insertedData_cons) x u hu a
  rw [mem_ite_mark, hold]
  have hpath : ∀ r, (r, true) ∈ since P.ndn s.insertions x →
      (Relation.TransGen (PointsTo P.ndn ((record, endorseVerified) :: s.insertions))
        (r.getRecordName P.ndn) x ↔
      Relation.TransGen (PointsTo P.ndn s.insertions) (r.getRecordName P.ndn) x) :=
    fun r hr => hlog.transGen_of_cons hx.logged hinj ⟨_, since_subset hr, rfl⟩
  -- the new record counts where the walk has marked, the earlier ones where they did before
  constructor
  · rintro (⟨hm, rfl⟩ | ⟨r, hr, hp, hprod, hother⟩)
    · obtain ⟨rfl, _, hprod, _⟩ := h.exists_of_mem hm
      refine ⟨record, ?_, ?_, by rw [hname], hprod.symm⟩
      · rw [since_cons_of_ne (hname.trans_ne hne)]
        exact List.mem_cons_self
      · rw [hname]
        exact hx.transGen_of_marked hs h hm
    · refine ⟨r, ?_, (hpath r hr).2 hp, hprod, hother⟩
      rw [since_cons_of_ne (hname.trans_ne hne)]
      exact List.mem_cons_of_mem _ hr
  · rintro ⟨r, hr, hp, hprod, hother⟩
    rw [since_cons_of_ne (hname.trans_ne hne), List.mem_cons] at hr
    rcases hr with heq | hr
    · cases heq
      rw [hname] at hp hprod
      subst hprod
      rcases hx.covers_of_path hs hst h hinj hp.to_reflTransGen with ⟨t', ht', _, hcov⟩ | ⟨hc, _⟩
      · rw [ht] at ht'
        cases ht'
        rw [← hold, ← mem_ite_mark]
        exact hcov.resolve_right hother
      · rw [ht] at hc
        cases hc
    · exact Or.inr ⟨r, hr, (hpath r hr).1 hp, hprod, hother⟩

/-- **Every insertion keeps the reference sets exact.** -/
theorem Exact.inserted (hx : Exact P s) (hs : TailInv P s) (hst : Stored P s)
    (h : Inserted P amb record endorseVerified n s s' marked names mid) : Exact P s' where
  logged := by
    rw [h.insertions_eq]
    exact hx.logged_cons hs hst h
  tail x t ht := by
    rw [h.insertions_eq]
    exact hx.walked_logged h.toAdded (h.walked_of_tail ht)
  stored x d r hd hr := by
    rw [h.insertions_eq]
    rcases h.backend_cases hd with ⟨t, ⟨_, ht, _⟩, hdata⟩ | hd
    · have hdec := ((h.named x t ht).ofData_eq hdata).1
      rw [hr] at hdec
      cases hdec
      exact ⟨_, hx.walked_logged h.toAdded ht⟩
    · obtain ⟨e, he⟩ := hx.stored x d r hd hr
      exact ⟨e, List.mem_cons_of_mem _ he⟩
  refSet hinj x t ht := by
    rw [h.insertions_eq] at hinj ⊢
    exact hx.counts_cons hs hst h hinj (h.walked_of_tail ht)

/-! ## Reachable states -/

theorem exact_blank (certManager : σ) : Exact P (blank Backend.empty certManager) := by
  have hnone : ∀ (n : Name) (t : TailingRecordState),
      (blank Backend.empty certManager).tailRecords[n]? ≠ some t := by
    intro n t ht
    simp [blank] at ht
  refine ⟨⟨?_, ?_⟩, fun n t ht => absurd ht (hnone n t), ?_, fun _ n t ht => absurd ht (hnone n t)⟩
  · intro ins hins
    cases hins
  · rintro n m ⟨ins, hins, _⟩
    cases hins
  · intro n d r hd
    rw [blank, Backend.getRecord_empty] at hd
    cases hd

theorem Exact.congr (hx : Exact P s) (h : SameRecords s s') : Exact P s' := by
  refine ⟨?_, ?_, ?_, ?_⟩
  · rw [h.insertions]; exact hx.logged
  · rw [h.insertions, h.tailRecords]; exact hx.tail
  · rw [h.insertions, h.backend]; exact hx.stored
  · rw [h.insertions, h.tailRecords]; exact hx.refSet

/-- **The reference sets are exact in every state reachable on an empty database.** -/
theorem Reachable.exact (hpos : 1 ≤ P.config.confirmWeight) (hsmall : P.config.SmallWeights)
    {certManager : σ} (h : Reachable P Backend.empty certManager s) : Exact P s :=
  (h.induction hpos hsmall (I := fun s => Stored P s ∧ Exact P s)
    ⟨stored_blank certManager, exact_blank certManager⟩
    (fun _ _ ha hab => ⟨ha.1.congr hab, ha.2.congr hab⟩)
    fun _ _ _ _ _ _ _ _ _ hput hinv ha hins =>
      ⟨ha.1.inserted hpos hsmall hput hinv hins, ha.2.inserted hinv ha.1 hins⟩).2

end LedgerImpl

end DLedger
