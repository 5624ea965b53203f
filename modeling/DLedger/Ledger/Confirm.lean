import DLedger.Ledger.Tailing

set_option autoImplicit false

/-! # What the confirmation loop does

The loop over the updated records confirms those whose weight is `confirmWeight` and removes
those whose weight is at least `removeWeight`. What it does beside the tail is a fold of
`onRecordConfirmed` over the crossing records, in the order of their names.
-/

namespace DLedger

open Tlv (Bytes Block)

namespace LedgerImpl

variable {σ : Type} (P : Peer σ) (amb : Ambient)

/-! ## Confirming a list of records -/

def confirmAll (records : List Record) (s : LedgerImpl σ) : LedgerImpl σ :=
  records.foldl (fun s record => (onRecordConfirmed P amb record s).1) s

/-- All that confirming a record changes: the database, the last certificate records, the
certificate manager and the log. -/
theorem onRecordConfirmed_eq {record : Record} {d : Data} (h : record.data = some d)
    (s : LedgerImpl σ) :
    ∃ lastCertRecords certManager events,
      onRecordConfirmed P amb record s
        = ({ s with
            backend := (s.backend.putRecord P.ndn (amb.putOk (P.ndn.fullName d)) d).1
            lastCertRecords := lastCertRecords
            certManager := certManager
            log := events ++ .confirmed record :: s.log }, .ok ()) ∧
      (certManager = s.certManager ∨
        certManager = P.certManager.acceptRecord s.certManager record) ∧
      (events = [] ∨ events = [.appConfirmed record]) := by
  unfold onRecordConfirmed
  simp only [h]
  cases record.type with
  | certificateRecord =>
      -- a bad format ends the call after the write
      cases CertificateRecord.ofRecord P.ndn record with
      | error e => exact ⟨_, _, [], rfl, Or.inl rfl, Or.inl rfl⟩
      | ok certRecord => exact ⟨_, _, [_], rfl, Or.inr rfl, Or.inr rfl⟩
  | revocationRecord => exact ⟨_, _, [_], rfl, Or.inr rfl, Or.inr rfl⟩
  | baseRecord | genericRecord | genesisRecord =>
      exact ⟨_, _, [_], rfl, Or.inl rfl, Or.inr rfl⟩

theorem onRecordConfirmed_ok {record : Record} {d : Data} (h : record.data = some d)
    (s : LedgerImpl σ) : (onRecordConfirmed P amb record s).2 = .ok () := by
  obtain ⟨_, _, _, heq, _⟩ := onRecordConfirmed_eq P amb h s
  rw [heq]

/-- Confirming neither reads nor changes the tail and the sync stack. -/
theorem onRecordConfirmed_withTail (record : Record) (s : LedgerImpl σ) (tail : TailMap) :
    onRecordConfirmed P amb record (s.withTail tail)
      = ((onRecordConfirmed P amb record s).1.withTail tail,
          (onRecordConfirmed P amb record s).2) := by
  unfold onRecordConfirmed
  cases record.data with
  | none => rfl
  | some d =>
      cases record.type with
      | certificateRecord => dsimp only; cases CertificateRecord.ofRecord P.ndn record <;> rfl
      | baseRecord => rfl
      | genericRecord => rfl
      | revocationRecord => rfl
      | genesisRecord => rfl

theorem onRecordConfirmed_withStack (record : Record) (s : LedgerImpl σ)
    (stack : List (Record × Int)) :
    onRecordConfirmed P amb record (s.withStack stack)
      = ((onRecordConfirmed P amb record s).1.withStack stack,
          (onRecordConfirmed P amb record s).2) := by
  unfold onRecordConfirmed
  cases record.data with
  | none => rfl
  | some d =>
      cases record.type with
      | certificateRecord => dsimp only; cases CertificateRecord.ofRecord P.ndn record <;> rfl
      | baseRecord => rfl
      | genericRecord => rfl
      | revocationRecord => rfl
      | genesisRecord => rfl

theorem confirmAll_withTail (records : List Record) (s : LedgerImpl σ) (tail : TailMap) :
    confirmAll P amb records (s.withTail tail) = (confirmAll P amb records s).withTail tail := by
  induction records generalizing s with
  | nil => rfl
  | cons r rs ih =>
      simp only [confirmAll, List.foldl_cons] at ih ⊢
      rw [onRecordConfirmed_withTail, ih]

theorem confirmAll_withStack (records : List Record) (s : LedgerImpl σ)
    (stack : List (Record × Int)) :
    confirmAll P amb records (s.withStack stack)
      = (confirmAll P amb records s).withStack stack := by
  induction records generalizing s with
  | nil => rfl
  | cons r rs ih =>
      simp only [confirmAll, List.foldl_cons] at ih ⊢
      rw [onRecordConfirmed_withStack, ih]

@[simp] theorem confirmAll_tailRecords (records : List Record) (s : LedgerImpl σ) :
    (confirmAll P amb records s).tailRecords = s.tailRecords := by
  have h : confirmAll P amb records s = (confirmAll P amb records s).withTail s.tailRecords :=
    confirmAll_withTail P amb records s s.tailRecords
  exact (congrArg LedgerImpl.tailRecords h).trans rfl

@[simp] theorem confirmAll_syncStack (records : List Record) (s : LedgerImpl σ) :
    (confirmAll P amb records s).syncStack = s.syncStack := by
  have h : confirmAll P amb records s = (confirmAll P amb records s).withStack s.syncStack :=
    confirmAll_withStack P amb records s s.syncStack
  exact (congrArg LedgerImpl.syncStack h).trans rfl

/-- A confirmed record is stored if the write succeeds; nothing else changes in the database. -/
theorem onRecordConfirmed_backend {record : Record} {d : Data} (h : record.data = some d)
    (s : LedgerImpl σ) : (onRecordConfirmed P amb record s).1.backend
      = (s.backend.putRecord P.ndn (amb.putOk (P.ndn.fullName d)) d).1 := by
  obtain ⟨_, _, _, heq, _⟩ := onRecordConfirmed_eq P amb h s
  rw [heq]

/-- Whether the write succeeds or not, a stored packet was there before or is that of the
record. -/
theorem onRecordConfirmed_getRecord {record : Record} {s : LedgerImpl σ} {n : Name} {d : Data}
    (h : (onRecordConfirmed P amb record s).1.backend.getRecord P.ndn n = some d) :
    s.backend.getRecord P.ndn n = some d ∨
      (record.data = some d ∧ P.ndn.fullName d = n) := by
  cases hdata : record.data with
  | none =>
      simp only [onRecordConfirmed, hdata] at h
      exact Or.inl h
  | some data =>
      rw [onRecordConfirmed_backend P amb hdata] at h
      cases hput : amb.putOk (P.ndn.fullName data) with
      | false =>
          rw [hput, Backend.putRecord_false] at h
          exact Or.inl h
      | true =>
          rw [hput, Backend.getRecord_putRecord] at h
          split_ifs at h with hn
          · cases h
            exact Or.inr ⟨rfl, hn⟩
          · exact Or.inl h

theorem confirmAll_getRecord_cases {records : List Record} {s : LedgerImpl σ} {n : Name} {d : Data}
    (h : (confirmAll P amb records s).backend.getRecord P.ndn n = some d) :
    s.backend.getRecord P.ndn n = some d ∨
      ∃ r ∈ records, r.data = some d ∧ P.ndn.fullName d = n := by
  induction records generalizing s with
  | nil => exact Or.inl h
  | cons r rs ih =>
      rw [confirmAll, List.foldl_cons] at h
      rcases ih h with hs | ⟨q, hq, hd⟩
      · rcases onRecordConfirmed_getRecord P amb hs with hs | hr
        · exact Or.inl hs
        · exact Or.inr ⟨r, List.mem_cons_self, hr⟩
      · exact Or.inr ⟨q, List.mem_cons_of_mem r hq, hd⟩

/-- A packet is stored after a list of confirmations when it was stored before, or a record of
that name is in the list and its write succeeds. -/
theorem confirmAll_stored_iff {records : List Record} {s : LedgerImpl σ} {n : Name} :
    (∃ d, (confirmAll P amb records s).backend.getRecord P.ndn n = some d) ↔
      (∃ d, s.backend.getRecord P.ndn n = some d) ∨
        amb.putOk n = true ∧ ∃ r ∈ records, ∃ d, r.data = some d ∧ P.ndn.fullName d = n := by
  induction records generalizing s with
  | nil => simp [confirmAll]
  | cons r rs ih =>
      have hhead : (∃ d, (onRecordConfirmed P amb r s).1.backend.getRecord P.ndn n = some d) ↔
          (∃ d, s.backend.getRecord P.ndn n = some d) ∨
            amb.putOk n = true ∧ ∃ d, r.data = some d ∧ P.ndn.fullName d = n := by
        cases hdata : r.data with
        | none => simp [onRecordConfirmed, hdata]
        | some data =>
            rw [onRecordConfirmed_backend P amb hdata]
            by_cases hn : P.ndn.fullName data = n
            · subst hn
              cases hput : amb.putOk (P.ndn.fullName data) <;> simp
            · cases hput : amb.putOk (P.ndn.fullName data) <;> simp [hn]
      rw [confirmAll, List.foldl_cons]
      refine ih.trans ?_
      rw [hhead, List.exists_mem_cons_iff, and_or_left, or_assoc]

theorem onRecordConfirmed_insertions (record : Record) (s : LedgerImpl σ) :
    (onRecordConfirmed P amb record s).1.insertions = s.insertions := by
  cases hdata : record.data with
  | none => simp only [onRecordConfirmed, hdata]
  | some d =>
      obtain ⟨_, _, events, heq, _, hevents⟩ := onRecordConfirmed_eq P amb hdata s
      rw [heq]
      rcases hevents with rfl | rfl <;> rfl

theorem onRecordConfirmed_confirmations {record : Record} {d : Data} (h : record.data = some d)
    (s : LedgerImpl σ) :
    (onRecordConfirmed P amb record s).1.confirmations = record :: s.confirmations := by
  obtain ⟨_, _, events, heq, _, hevents⟩ := onRecordConfirmed_eq P amb h s
  rw [heq]
  rcases hevents with rfl | rfl <;> rfl

theorem onRecordConfirmed_calls {record : Record} {d : Data} (h : record.data = some d)
    (s : LedgerImpl σ) :
    (onRecordConfirmed P amb record s).1.calls = (Event.confirmed record).addTo s.calls := by
  obtain ⟨_, _, events, heq, _, hevents⟩ := onRecordConfirmed_eq P amb h s
  rw [heq]
  rcases hevents with rfl | rfl <;> rfl

/-- Only certificate and revocation records change the certificate manager. -/
theorem onRecordConfirmed_certManager {record : Record}
    (h : record.type ≠ .certificateRecord ∧ record.type ≠ .revocationRecord) (s : LedgerImpl σ) :
    (onRecordConfirmed P amb record s).1.certManager = s.certManager := by
  unfold onRecordConfirmed
  cases record.data with
  | none => rfl
  | some d =>
      cases htype : record.type with
      | certificateRecord => exact absurd htype h.1
      | revocationRecord => exact absurd htype h.2
      | baseRecord => rfl
      | genericRecord => rfl
      | genesisRecord => rfl

/-- Confirming a record leaves the certificate manager as it is, or the manager accepts the
record. -/
theorem onRecordConfirmed_certManager_cases (record : Record) (s : LedgerImpl σ) :
    (onRecordConfirmed P amb record s).1.certManager = s.certManager ∨
      (onRecordConfirmed P amb record s).1.certManager
        = P.certManager.acceptRecord s.certManager record := by
  cases hdata : record.data with
  | none => exact Or.inl (by simp only [onRecordConfirmed, hdata])
  | some d =>
      obtain ⟨_, _, _, heq, hcert, _⟩ := onRecordConfirmed_eq P amb hdata s
      rw [heq]
      exact hcert

theorem confirmAll_certManager {records : List Record}
    (h : ∀ r ∈ records, r.type ≠ .certificateRecord ∧ r.type ≠ .revocationRecord)
    (s : LedgerImpl σ) : (confirmAll P amb records s).certManager = s.certManager := by
  induction records generalizing s with
  | nil => rfl
  | cons r rs ih =>
      rw [confirmAll, List.foldl_cons]
      exact (ih (fun r' hr' => h r' (List.mem_cons_of_mem r hr')) _).trans
        (onRecordConfirmed_certManager P amb (h r List.mem_cons_self) s)

@[simp] theorem confirmAll_insertions (records : List Record) (s : LedgerImpl σ) :
    (confirmAll P amb records s).insertions = s.insertions := by
  induction records generalizing s with
  | nil => rfl
  | cons r rs ih =>
      simp only [confirmAll, List.foldl_cons] at ih ⊢
      rw [ih, onRecordConfirmed_insertions]

theorem confirmAll_confirmations {records : List Record}
    (h : ∀ r ∈ records, ∃ d, r.data = some d) (s : LedgerImpl σ) :
    (confirmAll P amb records s).confirmations = records.reverse ++ s.confirmations := by
  induction records generalizing s with
  | nil => rfl
  | cons r rs ih =>
      obtain ⟨d, hd⟩ := h r List.mem_cons_self
      simp only [confirmAll, List.foldl_cons] at ih ⊢
      rw [ih (fun q hq => h q (List.mem_cons_of_mem r hq)),
        onRecordConfirmed_confirmations P amb hd, List.reverse_cons, List.append_assoc]
      rfl

/-- The confirmations belong to the latest call. -/
theorem confirmAll_calls {records : List Record} (h : ∀ r ∈ records, ∃ d, r.data = some d)
    {s : LedgerImpl σ} {latest : List Record} {calls : List (List Record)}
    (hs : s.calls = latest :: calls) :
    (confirmAll P amb records s).calls = (latest ++ records) :: calls := by
  induction records generalizing s latest with
  | nil => rw [List.append_nil]; exact hs
  | cons r rs ih =>
      obtain ⟨d, hd⟩ := h r List.mem_cons_self
      simp only [confirmAll, List.foldl_cons] at ih ⊢
      have hnext : (onRecordConfirmed P amb r s).1.calls = (latest ++ [r]) :: calls := by
        rw [onRecordConfirmed_calls P amb hd, hs]
        rfl
      rw [ih (fun q hq => h q (List.mem_cons_of_mem r hq)) hnext, List.append_assoc]
      rfl

/-- The database after a list of confirmations: a stored packet has the full name of one of
the records, or it was there before. -/
theorem confirmAll_getRecord {records : List Record}
    (h : ∀ r ∈ records, ∃ d, r.data = some d)
    (hput : ∀ n, amb.putOk n = true) (s : LedgerImpl σ) (x : Name) :
    (confirmAll P amb records s).backend.getRecord P.ndn x
      = ((records.reverse.find? fun r => r.getRecordName P.ndn == x).bind Record.data).or
          (s.backend.getRecord P.ndn x) := by
  induction records generalizing s with
  | nil => rfl
  | cons r rs ih =>
      obtain ⟨d, hd⟩ := h r List.mem_cons_self
      have hname : r.getRecordName P.ndn = P.ndn.fullName d := by
        rw [Record.getRecordName, hd]
      simp only [confirmAll, List.foldl_cons] at ih ⊢
      rw [ih (fun q hq => h q (List.mem_cons_of_mem r hq)),
        onRecordConfirmed_backend P amb hd, hput, Backend.getRecord_putRecord,
        List.reverse_cons, List.find?_append]
      -- a later write to the same name wins, whence the reversal
      cases hfind : rs.reverse.find? fun r => r.getRecordName P.ndn == x with
      | some q =>
          obtain ⟨dq, hq⟩ := h q (List.mem_cons_of_mem r
            (List.mem_reverse.1 (List.mem_of_find?_eq_some hfind)))
          simp [hq]
      | none =>
          by_cases hx : P.ndn.fullName d = x
          · simp [hname, hx, hd]
          · simp [hname, hx]

/-! ## The loop -/

/-- The records of a list of names whose weight is `confirmWeight`. -/
def crossing (lookup : Name → Option TailingRecordState) (confirmWeight : Nat)
    (names : List Name) : List Record :=
  names.filterMap fun n => (lookup n).bind fun t =>
    if t.refSet.card = confirmWeight then some t.record else none

/-- Whether the loop removes an entry. -/
def IsDeep (t : TailingRecordState) : Prop :=
  P.removesDeep = true ∧ P.config.removeWeight ≤ t.refSet.card

instance (t : TailingRecordState) : Decidable (IsDeep P t) := instDecidableAnd

/-- `m_tailRecords[name]` of a tailing record. -/
theorem insertIfNew_of_tailing {tail : TailMap} {n : Name} {t : TailingRecordState}
    (ht : tail[n]? = some t) :
    (∀ x : Name, (tail.insertIfNew n {})[x]? = tail[x]?) ∧
      (tail.insertIfNew n {}).getD n {} = t := by
  have hinsert : ∀ x : Name, (tail.insertIfNew n {})[x]? = tail[x]? := by
    intro x
    have hmem : n ∈ tail := by
      rw [Std.TreeMap.mem_iff_isSome_getElem?, ht]; rfl
    simp [Std.TreeMap.getElem?_insertIfNew, hmem]
  exact ⟨hinsert, by rw [Std.TreeMap.getD_eq_getD_getElem?, hinsert, ht, Option.getD_some]⟩

/-- The first `if`, on a verified tailing record. -/
theorem confirmUpdated_spec {s : LedgerImpl σ} {n : Name} {t : TailingRecordState}
    {d : Data} (ht : s.tailRecords[n]? = some t) (hv : t.parentEndorseVerified = true)
    (hd : t.record.data = some d) :
    ∃ mid : TailMap, (∀ x : Name, mid[x]? = s.tailRecords[x]?) ∧
      confirmUpdated P amb n t (s.withTail (s.tailRecords.insertIfNew n {}), false)
        = (((confirmAll P amb
              (crossing s.tailRecords.lookup P.config.confirmWeight [n]) s).withTail mid, false),
            .ok ()) := by
  obtain ⟨hinsert, _⟩ := insertIfNew_of_tailing ht
  -- the entry is verified already, so writing the flag changes nothing
  have hsame : ({ t with parentEndorseVerified := true } : TailingRecordState) = t := by
    rw [← hv]
  unfold confirmUpdated
  by_cases hc : t.refSet.card = P.config.confirmWeight
  · refine ⟨(s.tailRecords.insertIfNew n {}).insert n t, ?_, ?_⟩
    · intro x
      simp only [Std.TreeMap.getElem?_insert, Std.LawfulEqOrd.compare_eq_iff_eq]
      by_cases hx : n = x
      · subst hx; simp [ht]
      · simp [hx, hinsert]
    · have hcross : crossing s.tailRecords.lookup P.config.confirmWeight [n] = [t.record] := by
        simp [crossing, ht, hc]
      have hset : (s.withTail (s.tailRecords.insertIfNew n {})).setTail n t
          = s.withTail ((s.tailRecords.insertIfNew n {}).insert n t) := rfl
      have hget : (s.withTail ((s.tailRecords.insertIfNew n {}).insert n t)).getRecord P n
          = .ok (some t.record) := by
        simp [getRecord, hv]
      rw [if_pos hc, hcross]
      simp only [hsame, hset, hv, Bool.not_true, Bool.or_false, hget,
        onRecordConfirmed_withTail, onRecordConfirmed_ok P amb hd]
      rfl
  · refine ⟨s.tailRecords.insertIfNew n {}, hinsert, ?_⟩
    have hcross : crossing s.tailRecords.lookup P.config.confirmWeight [n] = [] := by
      simp [crossing, ht, hc]
    rw [if_neg hc, hcross]
    rfl

/-- One iteration, on a verified tailing record. -/
theorem processUpdated_spec {s : LedgerImpl σ} {n : Name} {t : TailingRecordState}
    {d : Data} (ht : s.tailRecords[n]? = some t) (hv : t.parentEndorseVerified = true)
    (hd : t.record.data = some d) :
    ∃ tail : TailMap,
      processUpdated P amb n (s, false)
        = (((confirmAll P amb
              (crossing s.tailRecords.lookup P.config.confirmWeight [n]) s).withTail tail, false),
            .ok ()) ∧
      ∀ x : Name, tail[x]? = if n = x ∧ IsDeep P t then none else s.tailRecords[x]? := by
  obtain ⟨_, hgetD⟩ := insertIfNew_of_tailing ht
  obtain ⟨mid, hmid, hconfirm⟩ := confirmUpdated_spec P amb ht hv hd
  have hprocess : processUpdated P amb n (s, false)
      = ((removeUpdated P n t ((confirmAll P amb
          (crossing s.tailRecords.lookup P.config.confirmWeight [n]) s).withTail mid), false),
          .ok ()) := by
    unfold processUpdated
    simp only [hgetD]
    rw [show ({ s with tailRecords := s.tailRecords.insertIfNew n {} } : LedgerImpl σ)
      = s.withTail (s.tailRecords.insertIfNew n {}) from rfl, hconfirm]
  rw [hprocess, removeUpdated]
  by_cases hdeep : IsDeep P t
  · refine ⟨mid.erase n, ?_, ?_⟩
    · rw [if_pos (by simpa [IsDeep] using hdeep)]
      rfl
    · intro x
      simp only [Std.TreeMap.getElem?_erase, Std.LawfulEqOrd.compare_eq_iff_eq, hmid, hdeep,
        and_true]
  · refine ⟨mid, ?_, ?_⟩
    · rw [if_neg (by simpa [IsDeep] using hdeep)]
    · intro x
      simp [hdeep, hmid]

/-- **The loop**, over verified tailing records: it confirms the crossing records in the
order of the list and removes the deep ones. -/
theorem processAll_spec {names : List Name} (hnodup : names.Nodup) {s : LedgerImpl σ}
    (h : ∀ n ∈ names, ∃ t, s.tailRecords[n]? = some t ∧ t.parentEndorseVerified = true ∧
      ∃ d, t.record.data = some d) :
    ∃ tail : TailMap,
      Outcome.forEach (processUpdated P amb) names (s, false)
        = (((confirmAll P amb
              (crossing s.tailRecords.lookup P.config.confirmWeight names) s).withTail tail,
            false), .ok ()) ∧
      ∀ (x : Name) (t : TailingRecordState), tail[x]? = some t ↔
        s.tailRecords[x]? = some t ∧ ¬ (x ∈ names ∧ IsDeep P t) := by
  induction names generalizing s with
  | nil => exact ⟨s.tailRecords, rfl, fun x t => by simp⟩
  | cons n names ih =>
      obtain ⟨hn, hnodup⟩ := List.nodup_cons.1 hnodup
      obtain ⟨t, ht, hv, d, hd⟩ := h n List.mem_cons_self
      obtain ⟨mid, hstep, hmid⟩ := processUpdated_spec P amb ht hv hd
      -- the entries of the other names are as before
      have hother : ∀ x ∈ names, mid[x]? = s.tailRecords[x]? := by
        intro x hx
        have hne : n ≠ x := fun heq => hn (heq ▸ hx)
        simp [hmid x, hne]
      have hcross : crossing mid.lookup P.config.confirmWeight names
          = crossing s.tailRecords.lookup P.config.confirmWeight names :=
        List.filterMap_congr fun x hx => by rw [TailMap.lookup, hother x hx]
      obtain ⟨tail, hrest, htail⟩ := ih hnodup (s := (confirmAll P amb
          (crossing s.tailRecords.lookup P.config.confirmWeight [n]) s).withTail mid)
        (fun x hx => by
          simp only [withTail_tailRecords, hother x hx]
          exact h x (List.mem_cons_of_mem n hx))
      refine ⟨tail, ?_, ?_⟩
      · rw [Outcome.forEach_cons_ok hstep, hrest, withTail_tailRecords, hcross,
          confirmAll_withTail, withTail_withTail]
        congr 3
        simp only [confirmAll, crossing, ← List.foldl_append, ← List.filterMap_append,
          List.singleton_append]
      · intro x u
        rw [htail x u, withTail_tailRecords, hmid x]
        by_cases hx : n = x
        · subst hx
          by_cases hdeep : IsDeep P t
          · simp [hdeep, ht]
            rintro rfl
            exact hdeep
          · simp [hdeep, ht, hn]
            rintro rfl
            exact hdeep
        · have hx' : x ≠ n := fun heq => hx heq.symm
          simp [hx, hx']

end LedgerImpl

end DLedger
