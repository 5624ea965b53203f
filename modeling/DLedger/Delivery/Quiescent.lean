import DLedger.Ledger.Core

set_option autoImplicit false

/-! # The sync stack comes to rest

`onFetchedRecord` scans the sync stack until its size does not change any more. A scan that
leaves the size as it was has added nothing, so none of the records that wait can be added.
-/

namespace DLedger

open Tlv (Bytes Block)

namespace LedgerImpl

variable {σ : Type} {P : Peer σ} {amb : Ambient} {s s' : LedgerImpl σ}

/-- Nothing that waits in the sync stack can be added. -/
def Quiescent (P : Peer σ) (s : LedgerImpl σ) : Prop :=
  ∀ it ∈ s.syncStack, readyToAdd P it.1 s = .ok false

/-! ## Scanning -/

/-- A scan does not make the stack longer, and when it leaves the size as it was, it has found
no record that can be added and changed nothing. -/
theorem scanStack_length {before rest : List (Record × Int)}
    (hstack : s.syncStack = before ++ rest)
    (hrun : scanStack P amb before rest s = (s', .ok ())) :
    s'.syncStack.length ≤ s.syncStack.length ∧
      (s'.syncStack.length = s.syncStack.length →
        s' = s ∧ ∀ it ∈ rest, readyToAdd P it.1 s = .ok false) := by
  induction rest generalizing before s with
  | nil =>
      cases hrun
      exact ⟨le_refl _, fun _ => ⟨rfl, fun it hit => absurd hit List.not_mem_nil⟩⟩
  | cons it rest ih =>
      have hlen : s.syncStack.length = (before ++ rest).length + 1 := by
        rw [hstack, List.length_append, List.length_cons, List.length_append]
        omega
      rw [scanStack] at hrun
      -- an entry that is dropped or added makes the stack shorter; any other changes nothing
      rcases hcheck : checkRecordAncestor P amb it.1 s with ⟨s₁, f | _ | _⟩
      · rw [hcheck] at hrun
        cases hrun
      · obtain ⟨heq, hready⟩ := checkRecordAncestor_ok_false hcheck
        subst heq
        rw [hcheck] at hrun
        dsimp only at hrun
        split_ifs at hrun with hlate
        · -- the entry is dropped
          obtain ⟨hle, _⟩ := ih rfl hrun
          rw [show ({ s₁ with syncStack := before ++ rest } : LedgerImpl σ).syncStack
            = before ++ rest from rfl] at hle
          exact ⟨by omega, fun heq => by omega⟩
        · obtain ⟨hle, hsame⟩ := ih (by rw [hstack]; simp) hrun
          refine ⟨hle, fun heq => ?_⟩
          obtain ⟨hs, hrest⟩ := hsame heq
          refine ⟨hs, fun it' hit' => ?_⟩
          rcases List.mem_cons.1 hit' with rfl | hit'
          · exact hready
          · exact hrest it' hit'
      · -- the entry is added
        rw [hcheck] at hrun
        obtain ⟨hle, _⟩ := ih rfl hrun
        rw [show ({ s₁ with syncStack := before ++ rest } : LedgerImpl σ).syncStack
          = before ++ rest from rfl] at hle
        exact ⟨by omega, fun heq => by omega⟩

/-- **The loop ends in a quiescent state.** Each scan that changes the size makes the stack
shorter, so the fuel suffices. -/
theorem rescanStack_quiescent {fuel : Nat} {stackSize : Option Nat}
    (hfuel : s.syncStack.length < fuel)
    (hlast : stackSize = some s.syncStack.length → Quiescent P s)
    (hrun : rescanStack P amb fuel stackSize s = (s', .ok ())) : Quiescent P s' := by
  induction fuel generalizing stackSize s with
  | zero => exact absurd hfuel (Nat.not_lt_zero _)
  | succ fuel ih =>
      rw [rescanStack] at hrun
      split_ifs at hrun with hsize
      · cases hrun
        exact hlast hsize
      · rcases hscan : scanStack P amb [] s.syncStack s with ⟨s₁, f | ⟨⟨⟩⟩⟩
        · rw [hscan] at hrun
          cases hrun
        · rw [hscan] at hrun
          obtain ⟨hle, hsame⟩ := scanStack_length rfl hscan
          by_cases heq : s₁.syncStack.length = s.syncStack.length
          · -- nothing has changed: the next test ends the loop
            obtain ⟨rfl, hrest⟩ := hsame heq
            cases fuel with
            | zero => cases hrun; exact hrest
            | succ fuel =>
                dsimp only at hrun
                rw [rescanStack, if_pos rfl] at hrun
                cases hrun
                exact hrest
          · refine ih (by omega) (fun hsome => ?_) hrun
            exact absurd (Option.some.inj hsome).symm heq

/-- More fuel than the length of the stack and two changes nothing: the loop ends by its own
test. -/
theorem rescanStack_fuel {fuel : Nat} {stackSize : Option Nat}
    (hfuel : s.syncStack.length + 2 ≤ fuel) :
    rescanStack P amb fuel stackSize s
      = rescanStack P amb (s.syncStack.length + 2) stackSize s := by
  -- one unit of fuel more or less makes no difference from there on
  suffices hstep : ∀ k stackSize (s : LedgerImpl σ), s.syncStack.length + 2 ≤ k →
      rescanStack P amb (k + 1) stackSize s = rescanStack P amb k stackSize s by
    induction fuel, hfuel using Nat.le_induction with
    | base => rfl
    | succ k hk ih => exact (hstep k stackSize s hk).trans ih
  intro k
  induction k with
  | zero =>
      intro _ s hk
      omega
  | succ k ih =>
      intro stackSize s hk
      rw [rescanStack, rescanStack]
      split_ifs with hsize
      · rfl
      · rcases hscan : scanStack P amb [] s.syncStack s with ⟨s₁, f | ⟨⟨⟩⟩⟩
        · rfl
        · obtain ⟨hle, hsame⟩ := scanStack_length rfl hscan
          by_cases heq : s₁.syncStack.length = s.syncStack.length
          · -- both stop at the next test
            obtain ⟨rfl, _⟩ := hsame heq
            cases k with
            | zero => omega
            | succ k =>
                dsimp only
                rw [rescanStack, rescanStack, if_pos rfl, if_pos rfl]
          · exact ih _ s₁ (by omega)

/-! ## What a record waits for -/

/-- An ancestor of a record is missing: a pointer that the ledger does not have or, for a
certificate record, a previous certificate record that it has not seen. -/
def Waits (P : Peer σ) (s : LedgerImpl σ) (record : Record) : Prop :=
  (∃ p ∈ record.recordPointers, s.hasRecord P (P.ndn.toUri p) = false) ∨
    record.type = .certificateRecord ∧
      ∃ certRecord, CertificateRecord.ofRecord P.ndn record = .ok certRecord ∧
        ∃ prevCertName ∈ certRecord.prevCert, prevCertName ≠ [] ∧
          s.seenRecord P prevCertName = false

theorem readyToAdd_eq_false_iff {record : Record} :
    readyToAdd P record s = .ok false ↔ Readable P.ndn record ∧ Waits P s record := by
  unfold readyToAdd
  by_cases htype : record.type = .certificateRecord
  · simp only [if_pos htype]
    cases hread : CertificateRecord.ofRecord P.ndn record with
    | error e => simp [Readable, htype, hread]
    | ok certRecord =>
        have hyes : Readable P.ndn record := fun _ => ⟨certRecord, hread⟩
        rw [Except.ok.injEq, Bool.and_eq_false_iff]
        simp [hyes, Waits, htype, hread, List.all_eq_false, -Bool.and_eq_false_imp]
  · simp [Readable, Waits, htype, List.all_eq_false]

/-- A record waits on as long as the ledger gets none of its ancestors. -/
theorem Waits.mono {record : Record} (h : Waits P s record)
    (hhas : ∀ p ∈ ancestorNames P.ndn record, s'.hasRecord P (P.ndn.toUri p) = true →
      s.hasRecord P (P.ndn.toUri p) = true)
    (hseen : ∀ p ∈ ancestorNames P.ndn record, s'.seenRecord P p = true →
      s.seenRecord P p = true) : Waits P s' record := by
  rcases h with ⟨p, hp, hnot⟩ | ⟨htype, certRecord, hread, p, hp, hne, hunseen⟩
  · refine Or.inl ⟨p, hp, ?_⟩
    rw [← Bool.not_eq_true] at hnot ⊢
    exact fun h => hnot (hhas p (List.mem_append_left _ hp) h)
  · refine Or.inr ⟨htype, certRecord, hread, p, hp, hne, ?_⟩
    have hmem : p ∈ ancestorNames P.ndn record := by
      refine List.mem_append_right _ ?_
      simp only [prevCertNames, if_pos htype, hread]
      exact List.mem_filter.2 ⟨hp, by simpa using hne⟩
    rw [← Bool.not_eq_true] at hunseen ⊢
    exact fun h => hunseen (hseen p hmem h)

/-- A record with an unseen ancestor waits. -/
theorem waits_of_unseen {record : Record}
    (h : ((ancestorNames P.ndn record).all fun n => s.seenRecord P n) = false) :
    Waits P s record := by
  obtain ⟨p, hp, hunseen⟩ := List.all_eq_false.1 h
  rw [Bool.not_eq_true] at hunseen
  rcases List.mem_append.1 hp with hp | hp
  · refine Or.inl ⟨p, hp, ?_⟩
    rw [← Bool.not_eq_true]
    intro hhas
    obtain ⟨hheld, _⟩ := hasRecord_held hhas
    rw [seenRecord_iff.2 hheld] at hunseen
    cases hunseen
  · unfold prevCertNames at hp
    by_cases htype : record.type = .certificateRecord
    · rw [if_pos htype] at hp
      cases hread : CertificateRecord.ofRecord P.ndn record with
      | error e => rw [hread] at hp; cases hp
      | ok certRecord =>
          rw [hread] at hp
          obtain ⟨hmem, hne⟩ := List.mem_filter.1 hp
          exact Or.inr ⟨htype, certRecord, hread, p, hmem, by simpa using hne, hunseen⟩
    · rw [if_neg htype] at hp
      cases hp

/-! ## Calls -/

/-- The certificate manager lets only those certificate records through that can be read. -/
def ReadableFormat (P : Peer σ) : Prop :=
  ∀ m record, record.type = .certificateRecord →
    P.certManager.verifyRecordFormat m record = .ok true →
    ∃ certRecord, CertificateRecord.ofRecord P.ndn record = .ok certRecord

theorem readableFormat_default {P : Peer DefaultCertificateManager}
    (hP : P.certManager = DefaultCertificateManager.manager P.ndn) : ReadableFormat P := by
  intro m record htype hgood
  rw [hP] at hgood
  simp only [DefaultCertificateManager.manager, DefaultCertificateManager.verifyRecordFormat, htype,
    Except.ok.injEq, Bool.and_eq_true] at hgood
  cases hread : CertificateRecord.ofRecord P.ndn record with
  | error e => simp [hread] at hgood
  | ok certRecord => exact ⟨certRecord, rfl⟩

theorem ReadableFormat.readable (hformat : ReadableFormat P) {data : Data} {record : Record}
    (hdec : Record.ofData P.ndn data = .ok record)
    (hcheck : checkSyntaxValidityOfRecord P amb data s = .ok true) : Readable P.ndn record := by
  intro htype
  obtain ⟨_, _, _, _, hgood⟩ := checkSyntaxOfRecord_ok (checkSyntaxValidityOfRecord_ok hdec hcheck)
  exact hformat _ record htype (hgood (Or.inl htype))

/-- **A received packet leaves a quiescent state quiescent**, also where it returns before the
loop. -/
theorem onFetchedRecord_quiescent {data : Data}
    (hreadable : ∀ record, Record.ofData P.ndn data = .ok record →
      checkSyntaxValidityOfRecord P amb data s = .ok true → Readable P.ndn record)
    (hs : Quiescent P s) (hrun : onFetchedRecord P amb data s = (s', .ok ())) :
    Quiescent P s' := by
  rcases onFetchedRecord_cases P amb data s with heq | ⟨record, hr⟩
  · rw [heq] at hrun
    cases hrun
    exact hs
  have hread := hreadable record hr.decoded hr.checked
  rw [hr.onFetchedRecord_eq] at hrun
  split_ifs at hrun with hall
  · exact rescanStack_quiescent (by omega) (by simp) hrun
  · cases hrun
    rw [ancestorsSeen, decide_eq_true hread, Bool.true_and, Bool.not_eq_true] at hall
    intro it hit
    refine Eq.trans (b := readyToAdd P it.1 s) rfl ?_
    rcases List.mem_append.1 hit with hit | hit
    · exact hs it hit
    · rw [List.mem_singleton.1 hit]
      exact readyToAdd_eq_false_iff.2 ⟨hread, waits_of_unseen hall⟩

/-! ## Each record is added once -/

/-- What some moves have inserted since a state: different records that waited there, none of
which waits any more. -/
def InsertedOnce (P : Peer σ) (s s' : LedgerImpl σ) (new : List (Record × Bool)) : Prop :=
  s'.insertions = new ++ s.insertions ∧ (new.map fun x => x.1.getRecordName P.ndn).Nodup ∧
    (∀ x ∈ new, ∃ it ∈ s.syncStack, it.1 = x.1) ∧
    ∀ it ∈ s'.syncStack, it ∈ s.syncStack ∧
      ∀ x ∈ new, it.1.getRecordName P.ndn ≠ x.1.getRecordName P.ndn

/-- The moves of a scan, which no packet interrupts. -/
theorem LedgerCore.insertedOnce (hs : LedgerCore P s)
    (h : ReceiveMoves P amb (fun _ => False) s s') :
    LedgerCore P s' ∧ ∃ new, InsertedOnce P s s' new := by
  induction h with
  | refl => exact ⟨hs, [], rfl, List.nodup_nil, by simp, fun it hit => ⟨hit, by simp⟩⟩
  | @tail a b _ hmove ih =>
      obtain ⟨ha, new, hins, hnodup, hnew, hstack⟩ := ih
      refine ⟨ha.receiveMove hmove, ?_⟩
      cases hmove with
      | @emit e quiet =>
          refine ⟨new, ?_, hnodup, hnew, hstack⟩
          rw [emit_insertions, quiet.1, hins]
          rfl
      | push receive => exact receive.elim
      | @drop before rest it stack late =>
          refine ⟨new, hins, hnodup, hnew, fun it' hit' => hstack it' ?_⟩
          rw [stack]
          exact ((List.Sublist.refl before).append (List.sublist_cons_self it rest)).subset hit'
      -- what is added leaves the stack, whose names differ, so it is added no second time
      | @resolve c before rest it data endorseVerified stack ready data_eq endorse added =>
          have hit : it ∈ a.syncStack := by rw [stack]; simp
          obtain ⟨n, marked, names, mid, _, _, hadded⟩ := ha.addition_stack hit ready added
          refine ⟨(it.1, endorseVerified) :: new, ?_, ?_, fun x hx => ?_, fun it' hit' => ?_⟩
          · rw [withStack_insertions, hadded.insertions_eq, hins]
            rfl
          · rw [List.map_cons, List.nodup_cons]
            refine ⟨fun hmem => ?_, hnodup⟩
            obtain ⟨x, hx, heq⟩ := List.mem_map.1 hmem
            exact (hstack it hit).2 x hx heq.symm
          · rcases List.mem_cons.1 hx with rfl | hx
            · exact ⟨it, (hstack it hit).1, rfl⟩
            · exact hnew x hx
          · have hold : it' ∈ a.syncStack := by
              rw [stack]
              exact ((List.Sublist.refl before).append
                (List.sublist_cons_self it rest)).subset hit'
            refine ⟨(hstack it' hold).1, fun x hx => ?_⟩
            rcases List.mem_cons.1 hx with rfl | hx
            · exact ha.stack.name_ne stack hit'
            · exact (hstack it' hold).2 x hx

/-- Interests for what is missing do not matter. -/
theorem received_sameRecords {now : Int} {record : Record} :
    SameRecords s (received P now record s) := by
  refine ⟨rfl, rfl, ?_, ?_, ?_⟩
  · simp [insertions, received, List.filterMap_append, List.filterMap_eq_nil_iff,
      Event.insertion?]
  · simp [confirmations, received, List.filterMap_append, List.filterMap_eq_nil_iff,
      Event.confirmation?]
  · have hfetch : ∀ names : List Name,
        (names.map Event.fetch).foldr Event.addTo s.calls = s.calls := by
      intro names
      induction names with
      | nil => rfl
      | cons name names ih => exact ih
    rw [calls, received, List.foldr_append, ← List.map_reverse]
    exact hfetch _

/-- **A received packet adds different records, none of which was seen.** -/
theorem onFetchedRecord_insertions (hs : LedgerCore P s) {data : Data}
    (hrun : onFetchedRecord P amb data s = (s', .ok ())) :
    ∃ new, s'.insertions = new ++ s.insertions ∧
      (new.map fun x => x.1.getRecordName P.ndn).Nodup ∧
      ∀ x ∈ new, s.seenRecord P (x.1.getRecordName P.ndn) = false := by
  rcases onFetchedRecord_cases P amb data s with heq | ⟨record, hr⟩
  · rw [heq] at hrun
    cases hrun
    exact ⟨[], rfl, List.nodup_nil, by simp⟩
  have hmoves : ReceiveMoves P amb (fun _ => True) s (received P amb.now record s) :=
    hr.moves trivial
  have hcore := hs.moves hmoves.moves
  rw [hr.onFetchedRecord_eq] at hrun
  split_ifs at hrun
  · obtain ⟨_, new, hins, hnodup, hnew, _⟩ := hcore.insertedOnce (rescanStack_moves hrun)
    rw [received_sameRecords.insertions] at hins
    refine ⟨new, hins, hnodup, fun x hx => ?_⟩
    obtain ⟨it, hit, heq⟩ := hnew x hx
    obtain ⟨n, hn, htail, hstored⟩ := hcore.stack.waiting it hit
    rw [← heq, hn.getRecordName]
    exact seenRecord_eq_false.2 ⟨htail, hstored⟩
  · cases hrun
    exact ⟨[], received_sameRecords.insertions, List.nodup_nil, by simp⟩

/-! ## Runs stay quiescent -/

/-- An addition leaves it quiescent when nothing waits for the new record. -/
theorem Quiescent.addition (hs : Quiescent P s) (hcore : TailCore P s) {record : Record}
    {endorseVerified : Bool} {n : Name} {marked : Finset Name} {names : List Name} {mid : TailMap}
    (h : Addition P amb record endorseVerified n s s' marked names mid)
    (hn : ∀ it ∈ s.syncStack, n ∉ ancestorNames P.ndn it.1) : Quiescent P s' := by
  intro it hit
  rw [h.syncStack] at hit
  obtain ⟨hread, hwaits⟩ := readyToAdd_eq_false_iff.1 (hs it hit)
  refine readyToAdd_eq_false_iff.2 ⟨hread, hwaits.mono (fun p hp hhas => ?_) fun p hp hseen => ?_⟩
  · exact (h.hasRecord hcore hhas).resolve_left fun heq => hn it hit (heq ▸ hp)
  · exact (h.seenRecord hseen).resolve_left fun heq => hn it hit (heq ▸ hp)

/-- A record to create is fresh, and full names are digests: unless the packet is a tailing record
already, nobody has it and nothing that waits points to it. -/
def DigestNames (P : Peer σ) (s : LedgerImpl σ) : Call → Prop
  | .createRecord amb record => record.Fresh P.ndn ∧
      ∀ record' data, buildRecord P amb record s = (record', .ok (.ok data)) →
        s.tailRecords[P.ndn.fullName data]? = none →
          Unknown P s (P.ndn.fullName data) ∧
            ∀ it ∈ s.syncStack, P.ndn.fullName data ∉ ancestorNames P.ndn it.1
  | _ => True

theorem DigestNames.createsNew {c : Call} (h : DigestNames P s c) : CreatesNew P s c := by
  cases c with
  | createRecord amb record =>
      exact ⟨h.1, fun record' data hbuild htail => (h.2 record' data hbuild htail).1⟩
  | onFetchedRecord | onLedgerSyncRequest | onRecordRequest | sendSyncInterest => trivial

theorem Quiescent.onlySends (hs : Quiescent P s) {events : List Event}
    (h : OnlySends P s s' events) : Quiescent P s' := by
  rw [h.eq]
  exact hs

theorem createRecord_quiescent (hcore : LedgerCore P s) (hs : Quiescent P s) {record : Record}
    (hdigest : DigestNames P s (.createRecord amb record))
    (hrun : call P (.createRecord amb record) s = (s', .ok ())) : Quiescent P s' := by
  rcases createRecord_cases hrun with ⟨events, h⟩ | ⟨built, data, s₁, events, hbuild, hfresh,
    hadd, h⟩
  · exact hs.onlySends h
  · obtain ⟨marked, names, mid, hadded⟩ :=
      hcore.tail.addition_built (buildRecord_built hdigest.1 hbuild) hfresh hadd
    have hwaiting := (hdigest.2 built data hbuild hfresh).2
    exact (hs.addition hcore.tail hadded hwaiting).onlySends h

/-- **Every call that returns keeps the stack quiescent.** -/
theorem call_quiescent (hformat : ReadableFormat P) (hcore : LedgerCore P s) (hs : Quiescent P s)
    {c : Call} (hdigest : DigestNames P s c) (hrun : call P c s = (s', .ok ())) :
    LedgerCore P s' ∧ Quiescent P s' := by
  refine ⟨hcore.moves (hdigest.createsNew.moves hrun), ?_⟩
  rcases call_cases (P := P) c s with ⟨amb, record, rfl⟩ | ⟨amb, data, rfl⟩ | ⟨events, h⟩
  · exact createRecord_quiescent hcore hs hdigest hrun
  · exact onFetchedRecord_quiescent (fun _ => hformat.readable) hs hrun
  · rw [hrun] at h
    exact hs.onlySends h

end LedgerImpl

end DLedger
