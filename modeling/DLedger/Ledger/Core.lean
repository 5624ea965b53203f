import DLedger.Ledger.Create

set_option autoImplicit false

/-! # What holds whatever the configuration

`LedgerInv` needs sensible weights and writes that succeed: where they fail, a verified record may
point to an unverified one, and a walk that comes there dereferences an empty optional. `LedgerCore`
is what every run keeps whose calls return. The walk of an addition that returns has passed verified
records only, so the addition sets no flag and stores no record that was not there before.
-/

namespace DLedger

open Tlv (Bytes Block)

namespace LedgerImpl

variable {σ : Type} {P : Peer σ} {amb : Ambient} {received : Data → Prop} {s s' : LedgerImpl σ}
  {record : Record} {endorseVerified : Bool} {n : Name} {marked : Finset Name}
  {names : List Name} {mid : TailMap}

/-- The entries of the tail are named, a genesis record is verified, and a record that is not
verified is not stored. -/
structure TailCore (P : Peer σ) (s : LedgerImpl σ) : Prop where
  named : ∀ (m : Name) (t : TailingRecordState), s.tailRecords[m]? = some t →
    Record.Named P.ndn m t.record
  genesis : ∀ (m : Name) (t : TailingRecordState), s.tailRecords[m]? = some t →
    t.record.type = .genesisRecord → t.parentEndorseVerified = true
  unstored : ∀ (m : Name) (t : TailingRecordState), s.tailRecords[m]? = some t →
    t.parentEndorseVerified = false → s.backend.getRecord P.ndn m = none

structure LedgerCore (P : Peer σ) (s : LedgerImpl σ) : Prop where
  tail : TailCore P s
  stack : StackInv P s

/-! ## Additions that return -/

/-- An addition that returns, of a record whose pointers are verified: all that it marks is
verified. -/
structure Addition (P : Peer σ) (amb : Ambient) (record : Record) (endorseVerified : Bool)
    (n : Name) (s s' : LedgerImpl σ) (marked : Finset Name) (names : List Name)
    (mid : TailMap) : Prop
    extends Added P amb record endorseVerified n s s' marked names mid where
  verified : ∀ x ∈ marked, ∃ t, s.tailRecords[x]? = some t ∧ t.parentEndorseVerified = true

/-- A walk that returns has marked tailing records that are verified. -/
theorem TailCore.newWalk (hs : TailCore P s) {d : Data} (hd : record.data = some d)
    (hnamed : (endorseVerified = true → RecordName.check (P.ndn.fullName d) = .ok ()) →
      Record.Named P.ndn (P.ndn.fullName d) record)
    (hv : pointersVerified record s = true) {w : WalkState σ}
    (hrun : weightWalk P record ((insertRecord P amb record endorseVerified s).tailRecords.size + 1)
      (walkStart P record endorseVerified (insertRecord P amb record endorseVerified s))
        = (w, .ok ())) :
    Record.Named P.ndn (P.ndn.fullName d) record ∧
      ∃ marked, NewWalk P amb record endorseVerified (P.ndn.fullName d) s w marked ∧
        ∀ x ∈ marked, P.ndn.fullName d ≠ x ∧
          ∃ t, s.tailRecords[x]? = some t ∧ t.parentEndorseVerified = true := by
  have hname : endorseVerified = true → RecordName.check (P.ndn.fullName d) = .ok () := by
    rintro rfl
    cases hc : RecordName.check (P.ndn.fullName d) with
    | ok _ => rfl
    | error e =>
        have hfull : record.getRecordName P.ndn = P.ndn.fullName d := by
          rw [Record.getRecordName, hd]
        simp only [walkStart, if_true, hfull, weightWalk, RecordName.ofName_of_check_error hc]
          at hrun
        cases hrun
  have hn := hnamed hname
  rw [insertRecord_eq hn.getRecordName hv] at hrun
  obtain ⟨marked, hwalk⟩ := newWalk_of_returns hn hname hrun
  refine ⟨hn, marked, hwalk, ?_⟩
  intro x hx
  have hne : P.ndn.fullName d ≠ x :=
    fun heq => ((hwalk.mem_marked x).1 hx).2.isOpen.1 (heq ▸ rfl)
  obtain ⟨hcheck, t, ht, hpassed⟩ := hwalk.passed x hx
  rw [insertedLookup, if_neg hne] at ht
  refine ⟨hne, t, ht, ?_⟩
  -- a genesis record is verified in the tail, any other one was looked up as verified
  rcases hpassed with hgenesis | hverified
  · exact hs.genesis x t ht (((hs.named x t ht).type_eq hcheck).trans hgenesis)
  · exact hverified

/-- What was verified before the walk is verified after the new record is inserted. -/
theorem marksVerified_of_tail
    (h : ∀ x ∈ marked, n ≠ x ∧ ∃ t, s.tailRecords[x]? = some t ∧ t.parentEndorseVerified = true) :
    MarksVerified amb record endorseVerified n s marked := by
  intro x hx
  obtain ⟨hne, t, ht, hv⟩ := h x hx
  refine ⟨t, ?_, hv⟩
  rw [insertedLookup, if_neg hne]
  exact ht

theorem TailCore.addition (hs : TailCore P s) {d : Data} (hd : record.data = some d)
    (hfresh : s.tailRecords[P.ndn.fullName d]? = none)
    (hnamed : (endorseVerified = true → RecordName.check (P.ndn.fullName d) = .ok ()) →
      Record.Named P.ndn (P.ndn.fullName d) record)
    (hv : pointersVerified record s = true)
    (hadd : addToTailingRecord P amb record endorseVerified s = (s', .ok ())) :
    ∃ marked names mid,
      Addition P amb record endorseVerified (P.ndn.fullName d) s s' marked names mid := by
  have hcontains : s.tailRecords.contains (record.getRecordName P.ndn) = false := by
    rw [Record.getRecordName, hd, Std.TreeMap.contains_eq_isSome_getElem?, hfresh]
    rfl
  rcases hrun : weightWalk P record
      ((insertRecord P amb record endorseVerified s).tailRecords.size + 1)
      (walkStart P record endorseVerified (insertRecord P amb record endorseVerified s)) with
    ⟨w, f | ⟨⟨⟩⟩⟩
  · unfold addToTailingRecord at hadd
    simp only [hcontains, Bool.false_eq_true, if_false, hrun] at hadd
    cases hadd
  obtain ⟨hn, marked, hwalk, hverified⟩ := hs.newWalk hd hnamed hv hrun
  have hinsert : insertRecord P amb record endorseVerified s
      = withNew amb record endorseVerified (P.ndn.fullName d) s :=
    insertRecord_eq hn.getRecordName hv
  rw [hinsert] at hrun
  obtain ⟨s₁, mid, _, hrun', hadded⟩ := added_of_newWalk hn hfresh hinsert hs.named hrun hwalk
    (marksVerified_of_tail hverified)
  rw [hrun'] at hadd
  cases hadd
  exact ⟨marked, _, mid, hadded, fun x hx => (hverified x hx).2⟩

namespace Addition

/-- A record that is seen after the addition was seen before, or it is the new one. -/
theorem seenRecord (h : Addition P amb record endorseVerified n s s' marked names mid) {p : Name}
    (hp : s'.seenRecord P p = true) : p = n ∨ s.seenRecord P p = true := by
  rw [seenRecord_iff] at hp ⊢
  rcases hp with ⟨t, ht⟩ | ⟨d, hd⟩
  · rcases h.walked_cases (h.walked_of_tail ht) with ⟨rfl, _⟩ | ⟨_, u, hu, _⟩
    · exact Or.inl rfl
    · exact Or.inr (Or.inl ⟨u, hu⟩)
  · rcases h.getRecord_cases hd with hd | hm
    · exact Or.inr (Or.inr ⟨d, hd⟩)
    · obtain ⟨u, hu, _⟩ := h.verified p hm
      exact Or.inr (Or.inl ⟨u, hu⟩)

/-- So is a record that the ledger has. -/
theorem hasRecord (h : Addition P amb record endorseVerified n s s' marked names mid)
    (hs : TailCore P s) {p : Name} (hp : s'.hasRecord P (P.ndn.toUri p) = true) :
    p = n ∨ s.hasRecord P (P.ndn.toUri p) = true := by
  rcases hasRecord_toUri.1 hp with ⟨t, ht, htv⟩ | ⟨_, d, hd⟩
  · rcases h.walked_cases (h.walked_of_tail ht) with ⟨rfl, _⟩ | ⟨_, u, hu, rfl⟩
    · exact Or.inl rfl
    · rw [ite_mark_parentEndorseVerified] at htv
      exact Or.inr (hasRecord_toUri.2 (Or.inl ⟨u, hu, htv⟩))
  right
  rcases h.getRecord_cases hd with hd | hm
  · -- a stored record that is in the tail is verified
    cases hu : s.tailRecords[p]? with
    | none => exact hasRecord_toUri.2 (Or.inr ⟨hu, d, hd⟩)
    | some u =>
        refine hasRecord_toUri.2 (Or.inl ⟨u, hu, ?_⟩)
        by_contra hv
        rw [Bool.not_eq_true] at hv
        rw [hs.unstored p u hu hv] at hd
        cases hd
  · obtain ⟨u, hu, huv⟩ := h.verified p hm
    exact hasRecord_toUri.2 (Or.inl ⟨u, hu, huv⟩)

theorem tailCore (h : Addition P amb record endorseVerified n s s' marked names mid)
    (hs : TailCore P s) (hgenesis : record.type = .genesisRecord → endorseVerified = true)
    (hstored : endorseVerified = false → s.backend.getRecord P.ndn n = none) :
    TailCore P s' := by
  refine ⟨fun x t ht => h.named x t (h.walked_of_tail ht), ?_, ?_⟩
  · intro x t ht htype
    rcases h.walked_cases (h.walked_of_tail ht) with ⟨rfl, rfl⟩ | ⟨_, u, hu, rfl⟩
    · exact hgenesis htype
    · rw [ite_mark_record] at htype
      rw [ite_mark_parentEndorseVerified]
      exact hs.genesis x u hu htype
  · intro x t ht hv
    cases hd : s'.backend.getRecord P.ndn x with
    | none => rfl
    | some d =>
        rcases h.walked_cases (h.walked_of_tail ht) with ⟨rfl, rfl⟩ | ⟨_, u, hu, rfl⟩
        · rcases h.getRecord_cases hd with hd | hm
          · rw [hstored hv] at hd
            cases hd
          · exact absurd hm h.notMem_self
        · rw [ite_mark_parentEndorseVerified] at hv
          rcases h.getRecord_cases hd with hd | hm
          · rw [hs.unstored x u hu hv] at hd
            cases hd
          · obtain ⟨u', hu', huv⟩ := h.verified x hm
            rw [hu] at hu'
            cases hu'
            rw [hv] at huv
            cases huv

/-- What waits in the sync stack under another name stays unseen. -/
theorem stackInv (h : Addition P amb record endorseVerified n s s' marked names mid)
    (hs : StackInv P s) {stack : List (Record × Int)} (hsub : stack.Sublist s.syncStack)
    (hother : ∀ it ∈ stack, it.1.getRecordName P.ndn ≠ n) : StackInv P (s'.withStack stack) := by
  refine ⟨?_, fun it hit => hs.pointerName it (hsub.subset hit),
    fun it hit => hs.type_ne it (hsub.subset hit), hs.nodup.sublist (hsub.map _)⟩
  intro it hit
  obtain ⟨m, hm, ht, hb⟩ := hs.waiting it (hsub.subset hit)
  refine ⟨m, hm, seenRecord_eq_false.1 ?_⟩
  rw [← Bool.not_eq_true]
  intro hseen
  rcases h.seenRecord hseen with rfl | hseen
  · exact hother it hit hm.getRecordName
  · rw [seenRecord_eq_false.2 ⟨ht, hb⟩] at hseen
    cases hseen

end Addition

/-! ## The sync stack -/

theorem LedgerCore.withLog (hs : LedgerCore P s) (log : List Event) :
    LedgerCore P { s with log := log } :=
  ⟨⟨hs.tail.named, hs.tail.genesis, hs.tail.unstored⟩,
    ⟨hs.stack.waiting, hs.stack.pointerName, hs.stack.type_ne, hs.stack.nodup⟩⟩

theorem pointersVerified_of_ready (hready : readyToAdd P record s = .ok true) :
    pointersVerified record s = true := by
  rw [pointersVerified, List.all_eq_true]
  intro p hp
  cases ht : s.tailRecords[p]? with
  | none => rfl
  | some t => exact (hasRecord_held (readyToAdd_pointers hready p hp)).2 t ht

/-- An entry of the sync stack that is resolved. -/
theorem LedgerCore.addition_stack (hs : LedgerCore P s) {it : Record × Int}
    (hit : it ∈ s.syncStack) (hready : readyToAdd P it.1 s = .ok true)
    (hadd : addToTailingRecord P amb it.1 endorseVerified s = (s', .ok ())) :
    ∃ n marked names mid, it.1.getRecordName P.ndn = n ∧ s.backend.getRecord P.ndn n = none ∧
      Addition P amb it.1 endorseVerified n s s' marked names mid := by
  obtain ⟨n, hn, hfresh, hstored⟩ := hs.stack.waiting it hit
  obtain ⟨d, hd, rfl⟩ := hn.exists_data
  obtain ⟨marked, names, mid, h⟩ :=
    hs.tail.addition hd hfresh (fun _ => hn) (pointersVerified_of_ready hready) hadd
  exact ⟨_, marked, names, mid, hn.getRecordName, hstored, h⟩

theorem LedgerCore.receiveMove (hs : LedgerCore P s) (h : ReceiveMove P amb received s s') :
    LedgerCore P s' := by
  cases h with
  | emit quiet => exact hs.withLog _
  | @push data record receive decoded type_ne unseen unstacked checked =>
      refine ⟨⟨hs.tail.named, hs.tail.genesis, hs.tail.unstored⟩,
        hs.stack.push amb.now decoded type_ne unseen unstacked checked⟩
  | @drop before rest it stack late =>
      refine ⟨⟨hs.tail.named, hs.tail.genesis, hs.tail.unstored⟩, hs.stack.sublist ?_⟩
      rw [stack]
      exact (List.Sublist.refl before).append (List.sublist_cons_self it rest)
  | @resolve s' before rest it data endorseVerified stack ready data_eq endorse added =>
      have hit : it ∈ s.syncStack := by rw [stack]; simp
      obtain ⟨n, marked, names, mid, hn, hstored, h⟩ := hs.addition_stack hit ready added
      have hsub : (before ++ rest).Sublist s.syncStack := by
        rw [stack]
        exact (List.Sublist.refl before).append (List.sublist_cons_self it rest)
      have htail := h.tailCore hs.tail (fun htype => absurd htype (hs.stack.type_ne it hit))
        fun _ => hstored
      refine ⟨⟨htail.named, htail.genesis, htail.unstored⟩, h.stackInv hs.stack hsub ?_⟩
      exact fun it' hit' heq => hs.stack.name_ne stack hit' (heq.trans hn.symm)

/-! ## The constructor -/

theorem tailCore_blank (db : Backend) (certManager : σ) : TailCore P (blank db certManager) := by
  refine ⟨?_, ?_, ?_⟩ <;> intro m t ht <;> simp [blank] at ht

/-- A genesis record is added, or is a tailing record already. -/
theorem TailCore.addGenesis (hs : TailCore P s) {i : Nat}
    (h : LedgerImpl.addGenesis P amb i s = (s', .ok ())) :
    s' = s ∨ ∃ record n marked names mid, record.recordPointers = [] ∧
      Addition P amb record true n s s' marked names mid := by
  obtain ⟨record, d, _, _, hpointers, hd, hnamed, ⟨rfl, _⟩ | ⟨hfresh, hadd⟩⟩ := addGenesis_cases h
  · exact Or.inl rfl
  · obtain ⟨marked, names, mid, hadded⟩ := hs.addition hd hfresh
      (fun hname => hnamed (hname rfl)) (by simp [pointersVerified, hpointers]) hadd
    exact Or.inr ⟨record, _, marked, names, mid, hpointers, hadded⟩

/-- What the additions of the genesis records keep holds after some of them. -/
theorem addGenesis_induction {db : Backend} {certManager : σ} {I : LedgerImpl σ → Prop}
    (h₀ : I (blank db certManager))
    (hadded : ∀ record n a b marked names mid, I a → record.recordPointers = [] →
      Addition P amb record true n a b marked names mid → I b) {k : Nat}
    (h : Outcome.forEach (addGenesis P amb) (List.range k) (blank db certManager) = (s, .ok ())) :
    TailCore P s ∧ s.syncStack = [] ∧ I s := by
  refine Outcome.forEach_ok_invariant (fun s => TailCore P s ∧ s.syncStack = [] ∧ I s)
    (fun i _ a b ha hab => ?_) ⟨tailCore_blank db certManager, rfl, h₀⟩ h
  obtain ⟨hcore, hstack, hI⟩ := ha
  rcases hcore.addGenesis hab with rfl | ⟨record, n, marked, names, mid, hpointers, h⟩
  · exact ⟨hcore, hstack, hI⟩
  · exact ⟨h.tailCore hcore (fun _ => rfl) (by simp), h.syncStack.trans hstack,
      hadded record n a b marked names mid hI hpointers h⟩

theorem TailCore.ledgerCore (hs : TailCore P s) (hstack : s.syncStack = []) : LedgerCore P s := by
  refine ⟨hs, ?_, ?_, ?_, ?_⟩ <;> simp [hstack]

/-- The constructor leaves it, on any database. -/
theorem construct_core {db : Backend} {certManager : σ}
    (h : construct P amb db certManager = (s, .ok ())) :
    LedgerCore P s ∧ s.syncStack = [] := by
  obtain ⟨_, s₁, hrun, rfl⟩ := construct_ok h
  obtain ⟨htail, hstack, _⟩ := addGenesis_induction (I := fun _ => True) trivial
    (fun _ _ _ _ _ _ _ _ _ _ => trivial) hrun
  have hcore := htail.ledgerCore hstack
  unfold sendSyncInterest
  cases amb.signInterest with
  | error reason => exact ⟨hcore, hstack⟩
  | ok u => exact ⟨hcore.withLog _, hstack⟩

/-- A record that has no pointers changes nothing in the database. -/
theorem Added.unstored_of_pointerless
    (h : Added P amb record endorseVerified n s s' marked names mid)
    (hpointers : record.recordPointers = []) {x : Name}
    (hx : s.backend.getRecord P.ndn x = none) : s'.backend.getRecord P.ndn x = none := by
  refine Option.eq_none_iff_forall_not_mem.2 fun d hd => ?_
  rcases h.getRecord_cases hd with hd | hm
  · rw [hx] at hd
    cases hd
  · rw [h.marked_eq_empty hpointers] at hm
    exact absurd hm (Finset.notMem_empty x)

/-- A new ledger on an empty database stores nothing, and nothing waits in it. -/
theorem construct_unknown {certManager : σ}
    (h : construct P amb Backend.empty certManager = (s, .ok ())) (n : Name) : Unknown P s n := by
  have hstack := (construct_core h).2
  obtain ⟨_, s₁, hrun, rfl⟩ := construct_ok h
  obtain ⟨_, _, hempty⟩ := addGenesis_induction
    (I := fun s => ∀ x, s.backend.getRecord P.ndn x = none) (fun x => Backend.getRecord_empty _ _)
    (fun _ _ _ _ _ _ _ ha hpointers hadded x =>
      hadded.unstored_of_pointerless hpointers (ha x)) hrun
  refine ⟨?_, ?_⟩
  · rw [(sendSyncInterest_sameRecords s₁).backend]
    exact hempty n
  · rw [hstack]
    intro it hit
    cases hit

/-! ## Calls and runs -/

/-- A record to create is fresh, and unless its packet is a tailing record already nobody has it. -/
def CreatesNew (P : Peer σ) (s : LedgerImpl σ) : Call → Prop
  | .createRecord amb record => record.Fresh P.ndn ∧
      ∀ record' data, buildRecord P amb record s = (record', .ok (.ok data)) →
        s.tailRecords[P.ndn.fullName data]? = none → Unknown P s (P.ndn.fullName data)
  | _ => True

theorem Built.pointersVerified {data : Data} (hbuilt : Built P s record data) :
    pointersVerified record s = true := by
  rw [LedgerImpl.pointersVerified, List.all_eq_true]
  intro p hp
  obtain ⟨t, ht, htv, _⟩ := hbuilt.pointer p hp
  rw [ht]
  exact htv

/-- What `createRecord` has built is added, when its name is new to the tail. -/
theorem TailCore.addition_built (hs : TailCore P s) {data : Data} (hbuilt : Built P s record data)
    (hfresh : s.tailRecords[P.ndn.fullName data]? = none)
    (hadd : addToTailingRecord P amb record true s = (s', .ok ())) :
    ∃ marked names mid,
      Addition P amb record true (P.ndn.fullName data) s s' marked names mid :=
  hs.addition hbuilt.data_eq hfresh (fun hname => hbuilt.named (hname rfl))
    hbuilt.pointersVerified hadd

/-- A move that creates a record adds it, unless it is a tailing record. -/
theorem TailCore.created (hs : TailCore P s) {data : Data} (hbuilt : Built P s record data)
    (hadd : addToTailingRecord P amb record true s = (s', .ok ())) :
    s' = s ∨ s.tailRecords[P.ndn.fullName data]? = none ∧ ∃ marked names mid,
      Addition P amb record true (P.ndn.fullName data) s s' marked names mid := by
  cases hfresh : s.tailRecords[P.ndn.fullName data]? with
  | some t =>
      rw [addToTailingRecord_of_tail hbuilt.data_eq hfresh] at hadd
      cases hadd
      exact Or.inl rfl
  | none => exact Or.inr ⟨rfl, hs.addition_built hbuilt hfresh hadd⟩

/-- **Every move keeps it.** -/
theorem LedgerCore.move (hs : LedgerCore P s) (h : Move P amb s s') : LedgerCore P s' := by
  cases h with
  | receive h => exact hs.receiveMove h
  | create built new added =>
      rcases hs.tail.created built added with rfl | ⟨hfresh, marked, names, mid, h⟩
      · exact hs
      · have hstack : s'.withStack s.syncStack = s' := by
          rw [← h.syncStack, withStack_self]
        refine ⟨h.tailCore hs.tail (fun _ => rfl) (by simp), ?_⟩
        rw [← hstack]
        exact h.stackInv hs.stack (List.Sublist.refl _) (new hfresh).2

theorem LedgerCore.moves (hs : LedgerCore P s) (h : Moves P amb s s') : LedgerCore P s' := by
  induction h with
  | refl => exact hs
  | tail _ hmove ih => exact ih.move hmove

/-- What only sends is a sequence of steps that each emit an event. -/
theorem OnlySends.steps {step : LedgerImpl σ → LedgerImpl σ → Prop} {events : List Event}
    (h : OnlySends P s s' events) (hemit : ∀ a e, Event.IsQuiet e → step a (a.emit e)) :
    Relation.ReflTransGen step s s' := by
  have hlog : ∀ es : List Event, (∀ e ∈ es, e.IsQuiet) →
      Relation.ReflTransGen step s { s with log := es ++ s.log } := by
    intro es hquiet
    induction es with
    | nil => exact Relation.ReflTransGen.refl
    | cons e es ih =>
        exact (ih fun e' he' => hquiet e' (List.mem_cons_of_mem e he')).tail
          (hemit _ e (hquiet e List.mem_cons_self))
  rw [h.eq]
  exact hlog events h.quiet

theorem move_emit (s : LedgerImpl σ) {e : Event} (he : e.IsQuiet) : Move P amb s (s.emit e) := by
  have hemit : ReceiveMove P amb (fun _ => True) s (s.emit e) := ReceiveMove.emit he
  exact Move.receive hemit

theorem OnlySends.moves {events : List Event} (h : OnlySends P s s' events) : Moves P amb s s' :=
  h.steps fun a _ he => move_emit a he

/-- **A call that returns is a sequence of moves**, whatever the configuration is. -/
theorem CreatesNew.moves {c : Call} (hnew : CreatesNew P s c) (hrun : call P c s = (s', .ok ())) :
    Moves P c.ambient s s' := by
  rcases call_cases (P := P) c s with ⟨amb, record, rfl⟩ | ⟨amb, data, rfl⟩ | ⟨events, h⟩
  · rcases createRecord_cases hrun with ⟨events, h⟩ | ⟨built, data, s₁, events, hbuild, _, hadd, h⟩
    · exact h.moves
    · have hcreate : Move P amb s s₁ :=
        Move.create (buildRecord_built hnew.1 hbuild) (hnew.2 built data hbuild) hadd
      exact (h.moves).head hcreate
  · have hmoves : ReceiveMoves P amb (fun _ => True) s s' := onFetchedRecord_moves trivial hrun
    exact hmoves.moves
  · rw [hrun] at h
    exact h.moves

/-- The calls that return and create new packets only. -/
def ReturnsNew (P : Peer σ) (s : LedgerImpl σ) (c : Call) : Prop :=
  CreatesNew P s c ∧ CallReturns P s c

theorem RunsTo.core {db : Backend} {certManager : σ}
    (h : RunsTo P db certManager (ReturnsNew P) s) :
    LedgerCore P s := by
  induction h with
  | start hstart => exact (construct_core hstart).1
  | call _ hc ih => exact ih.moves (hc.1.moves (Outcome.eq_of_returns hc.2))

end LedgerImpl

end DLedger
