import DLedger.Ledger.Stored
import DLedger.Ledger.Sample

set_option autoImplicit false

/-! # The confirmed log

On an empty database: no record points to one that is gone, a record is confirmed once, when
its weight reaches `confirmWeight`, and it is never lost again.
-/

namespace DLedger

open Tlv (Bytes Block)

namespace LedgerImpl

variable {σ : Type} {P : Peer σ} {s s' : LedgerImpl σ} {certManager : σ}

/-- The states that a ledger goes through from one on. -/
abbrev Steps (P : Peer σ) : LedgerImpl σ → LedgerImpl σ → Prop :=
  Relation.ReflTransGen (Step P)

theorem Reachable.steps {db : Backend} (h : Reachable P db certManager s) (hs : Steps P s s') :
    Reachable P db certManager s' := by
  induction hs with
  | refl => exact h
  | tail _ hstep ih => exact ih.step hstep

/-! ## No dangling pointers -/

/-- **Every pointer of a tailing record is in the tail or stored, and every pointer of a
stored record is stored.** -/
theorem pointers_held (hpos : 1 ≤ P.config.confirmWeight) (hsmall : P.config.SmallWeights)
    (h : Reachable P Backend.empty certManager s) :
    (∀ (n : Name) (t : TailingRecordState), s.tailRecords[n]? = some t →
      ∀ p ∈ t.record.recordPointers,
        (∃ u, s.tailRecords[p]? = some u) ∨ ∃ d, s.backend.getRecord P.ndn p = some d) ∧
    (∀ (n : Name) (d : Data), s.backend.getRecord P.ndn n = some d →
      ∃ r, Record.ofData P.ndn d = .ok r ∧
        ∀ p ∈ r.recordPointers, ∃ d', s.backend.getRecord P.ndn p = some d') := by
  refine ⟨(h.inv hpos hsmall).tail.held, fun n d hd => ?_⟩
  obtain ⟨r, hr, _, hp⟩ := (h.stored hpos hsmall).decoded n d hd
  exact ⟨r, hr, hp⟩

theorem pointers_held_twoPackets :
    let s := (Sample.run (Sample.peer (Sample.config 1 1 1)) () Sample.twoPackets).1
    (∀ (n : Name) (t : TailingRecordState), s.tailRecords[n]? = some t →
      ∀ p ∈ t.record.recordPointers,
        (∃ u, s.tailRecords[p]? = some u) ∨ ∃ d, s.backend.getRecord Sample.ndn p = some d) ∧
    (∀ (n : Name) (d : Data), s.backend.getRecord Sample.ndn n = some d →
      ∃ r, Record.ofData Sample.ndn d = .ok r ∧
        ∀ p ∈ r.recordPointers, ∃ d', s.backend.getRecord Sample.ndn p = some d') :=
  pointers_held (P := Sample.peer (Sample.config 1 1 1)) (by decide)
    (Sample.smallWeights (by decide) (by decide)) (Sample.reachable_run Sample.run_twoPackets)

/-! ## Confirmation -/

/-- A confirmed record is in the database and has its full name. -/
theorem Stored.getRecord_of_confirmed (hst : Stored P s) {r : Record}
    (hr : r ∈ s.confirmations) : ∃ d, r.data = some d ∧ Record.ofData P.ndn d = .ok r ∧
      s.backend.getRecord P.ndn (r.getRecordName P.ndn) = some d := by
  obtain ⟨n, hn, hback⟩ := hst.confirmed r hr
  obtain ⟨d, hd, _⟩ := hn.exists_data
  rw [hd, ← hn.getRecordName] at hback
  exact ⟨d, hd, (hn.ofData_eq hd).1, hback⟩

/-- What is stored is found by its name, as it was decoded. -/
theorem Stored.found (hst : Stored P s) (hs : TailInv P s)
    (hpos : 1 ≤ P.config.confirmWeight) {n : Name} {d : Data} {r : Record}
    (hn : s.backend.getRecord P.ndn n = some d) (hr : Record.ofData P.ndn d = .ok r) :
    s.hasRecord P (P.ndn.toUri n) = true ∧ s.getRecord P n = .ok (some r) := by
  cases ht : s.tailRecords[n]? with
  | none =>
      refine ⟨hasRecord_toUri.2 (Or.inr ⟨ht, d, hn⟩), ?_⟩
      rw [LedgerImpl.getRecord, ht]
      simp only [hn, hr, Except.map]
  | some t =>
      have hheavy := hst.heavy n t d ht hn
      have hv : t.parentEndorseVerified = true := by
        rw [hs.sound.flags n t ht]
        cases he : t.recordEndorseVerified with
        | true => rfl
        | false =>
            rw [hs.sound.unmarked n t ht he, Finset.card_empty] at hheavy
            omega
      have hrec : t.record = r := by
        have hdata := (hs.confirmed n t ht hheavy).symm.trans hn
        have := ((hs.sound.named n t ht).ofData_eq hdata).1
        rw [hr] at this
        exact (Except.ok.inj this).symm
      refine ⟨hasRecord_toUri.2 (Or.inl ⟨t, ht, hv⟩), ?_⟩
      simp only [LedgerImpl.getRecord, ht, hv, if_true, hrec]

/-- A step keeps what is stored. -/
theorem Reachable.backend_step (hpos : 1 ≤ P.config.confirmWeight)
    (hsmall : P.config.SmallWeights) (h : Reachable P Backend.empty certManager s)
    (hstep : Step P s s') {n : Name} {d : Data}
    (hn : s.backend.getRecord P.ndn n = some d) : s'.backend.getRecord P.ndn n = some d := by
  have hinv := h.inv hpos hsmall
  obtain ⟨amb, hput, hmoves⟩ := hstep.moves hpos hsmall hinv
  refine (hinv.moves_induction hpos hsmall hput
    (I := fun s => Stored P s ∧ s.backend.getRecord P.ndn n = some d)
    ⟨h.stored hpos hsmall, hn⟩ (fun a b ha hab => ⟨ha.1.congr hab, hab.backend ▸ ha.2⟩)
    (fun record e m a b marked names mid hinv ha hins => ?_) hmoves).2
  exact ⟨ha.1.inserted hpos hsmall hput hinv.tail hins, ha.1.backend_eq hins.toAdded hput ha.2⟩

theorem Reachable.backend_steps (hpos : 1 ≤ P.config.confirmWeight)
    (hsmall : P.config.SmallWeights) (h : Reachable P Backend.empty certManager s)
    (hsteps : Steps P s s') {n : Name} {d : Data}
    (hn : s.backend.getRecord P.ndn n = some d) : s'.backend.getRecord P.ndn n = some d := by
  induction hsteps with
  | refl => exact hn
  | tail hsteps hstep ih => exact (h.steps hsteps).backend_step hpos hsmall hstep ih

/-- **A record is confirmed exactly once, when its weight reaches `confirmWeight`, and stays
confirmed.** -/
theorem confirmed_once (hpos : 1 ≤ P.config.confirmWeight) (hsmall : P.config.SmallWeights)
    (h : Reachable P Backend.empty certManager s) :
    (∀ (n : Name) (t : TailingRecordState), s.tailRecords[n]? = some t →
      ((∃ d, s.backend.getRecord P.ndn n = some d) ↔
        P.config.confirmWeight ≤ t.refSet.card)) ∧
    (∀ n, (s.confirmations.map fun r => r.getRecordName P.ndn).count n
      = if (s.backend.getRecord P.ndn n).isSome then 1 else 0) ∧
    (∀ r ∈ s.confirmations, ∀ s', Steps P s s' →
      s'.hasRecord P (P.ndn.toUri (r.getRecordName P.ndn)) = true ∧
        s'.getRecord P (r.getRecordName P.ndn) = .ok (some r)) := by
  have hst := h.stored hpos hsmall
  have hinv := (h.inv hpos hsmall).tail
  refine ⟨fun n t ht => ⟨?_, fun hc => ?_⟩, hst.once, fun r hr s' hsteps => ?_⟩
  · rintro ⟨d, hd⟩
    exact hst.heavy n t d ht hd
  · obtain ⟨d, hd, _⟩ := (hinv.sound.named n t ht).exists_data
    exact ⟨d, (hinv.confirmed n t ht hc).trans hd⟩
  · obtain ⟨d, _, hdec, hback⟩ := hst.getRecord_of_confirmed hr
    have h' := h.steps hsteps
    exact (h'.stored hpos hsmall).found (h'.inv hpos hsmall).tail hpos
      (h.backend_steps hpos hsmall hsteps hback) hdec

theorem confirmed_once_twoPackets :
    let P := Sample.peer (Sample.config 1 1 1)
    let s := (Sample.run P () Sample.twoPackets).1
    (∀ (n : Name) (t : TailingRecordState), s.tailRecords[n]? = some t →
      ((∃ d, s.backend.getRecord P.ndn n = some d) ↔
        P.config.confirmWeight ≤ t.refSet.card)) ∧
    (∀ n, (s.confirmations.map fun r => r.getRecordName P.ndn).count n
      = if (s.backend.getRecord P.ndn n).isSome then 1 else 0) ∧
    (∀ r ∈ s.confirmations, ∀ s', Steps P s s' →
      s'.hasRecord P (P.ndn.toUri (r.getRecordName P.ndn)) = true ∧
        s'.getRecord P (r.getRecordName P.ndn) = .ok (some r)) :=
  confirmed_once (P := Sample.peer (Sample.config 1 1 1)) (by decide)
    (Sample.smallWeights (by decide) (by decide)) (Sample.reachable_run Sample.run_twoPackets)

/-! ## The order of confirmation -/

/-- Every record of a list of confirmations, newest first, comes after what it points to. -/
def AncestorsFirst (ndn : Ndn) (confirmations : List Record) : Prop :=
  ∀ newer r older, confirmations = newer ++ r :: older → ∀ p ∈ r.recordPointers,
    ∃ r' ∈ older, r'.getRecordName ndn = p

/-- What the calls of `addToTailingRecord` confirm: each call in the order of the names, and
with a record all that it points to, in the same call if not in an earlier one. -/
structure CallsInv (P : Peer σ) (s : LedgerImpl σ) : Prop where
  flatten : s.calls.reverse.flatten = s.confirmations.reverse
  sorted : ∀ call ∈ s.calls,
    (call.map fun r => r.getRecordName P.ndn).Pairwise fun x y => compare x y = .lt
  closed : ∀ newer call older, s.calls = newer ++ call :: older → ∀ r ∈ call,
    ∀ p ∈ r.recordPointers, ∃ r', r'.getRecordName P.ndn = p ∧
      (r' ∈ call ∨ ∃ call' ∈ older, r' ∈ call')

theorem CallsInv.mem_iff (h : CallsInv P s) {r : Record} :
    (∃ call ∈ s.calls, r ∈ call) ↔ r ∈ s.confirmations := by
  rw [← List.mem_reverse, ← h.flatten]
  simp [List.mem_flatten]

/-- A stored record has been confirmed. -/
theorem Stored.exists_confirmed (hst : Stored P s) {p : Name} {d : Data}
    (hp : s.backend.getRecord P.ndn p = some d) :
    ∃ r ∈ s.confirmations, r.getRecordName P.ndn = p := by
  have honce := hst.once p
  rw [hp, Option.isSome_some, if_pos rfl] at honce
  obtain ⟨r, hr, hname⟩ := List.mem_map.1
    (List.count_pos_iff.1 (show 0 < _ from honce ▸ Nat.zero_lt_one))
  exact ⟨r, hr, hname⟩

theorem CallsInv.inserted {amb : Ambient} {record : Record} {endorseVerified : Bool} {n : Name}
    {marked : Finset Name} {names : List Name} {mid : TailMap}
    (hpos : 1 ≤ P.config.confirmWeight) (hput : ∀ m, amb.putOk m = true) (hc : CallsInv P s)
    (hst : Stored P s) (hs : TailInv P s)
    (h : Inserted P amb record endorseVerified n s s' marked names mid) : CallsInv P s' where
  flatten := by
    rw [h.calls_eq, h.confirmations_eq, List.reverse_cons, List.flatten_append, hc.flatten]
    simp
  sorted call hcall := by
    rw [h.calls_eq] at hcall
    rcases List.mem_cons.1 hcall with rfl | hcall
    · exact h.sorted.sublist (crossing_sublist h.named _ _)
    · exact hc.sorted call hcall
  closed newer call older heq r hr p hp := by
    rw [h.calls_eq] at heq
    rcases newer with _ | ⟨latest, newer⟩
    · rw [List.nil_append, List.cons.injEq] at heq
      obtain ⟨rfl, rfl⟩ := heq
      obtain ⟨x, hx, t, ht, hcard, rfl⟩ := h.mem_confirmedRecords.1 hr
      obtain ⟨d, hd⟩ := h.pointers_stored hpos hput hs ⟨hx, ht, hcard⟩ p hp
      -- a pointer of what is confirmed now is confirmed by the same call or by an earlier one
      rcases h.backend_cases hd with ⟨u, ⟨hu, hwu, hcu⟩, _⟩ | hd
      · exact ⟨u.record, (h.named p u hwu).getRecordName,
          Or.inl (h.mem_confirmedRecords.2 ⟨p, hu, u, hwu, hcu, rfl⟩)⟩
      · obtain ⟨r', hr', hname⟩ := hst.exists_confirmed hd
        exact ⟨r', hname, Or.inr (hc.mem_iff.2 hr')⟩
    · rw [List.cons_append, List.cons.injEq] at heq
      exact hc.closed newer call older heq.2 r hr p hp

theorem Reachable.callsInv (hpos : 1 ≤ P.config.confirmWeight) (hsmall : P.config.SmallWeights)
    (h : Reachable P Backend.empty certManager s) : CallsInv P s := by
  refine (h.induction hpos hsmall (I := fun s => Stored P s ∧ CallsInv P s)
    ⟨stored_blank certManager, ⟨rfl, ?_, ?_⟩⟩ (fun a b ha hab => ⟨ha.1.congr hab, ?_⟩)
    fun _ _ _ _ _ _ _ _ _ hput hinv ha hins =>
      ⟨ha.1.inserted hpos hsmall hput hinv hins, ha.2.inserted hpos hput ha.1 hinv hins⟩).2
  · intro call hcall
    cases hcall
  · intro newer call older heq
    have hlen := congrArg List.length heq
    simp [LedgerImpl.calls, blank] at hlen
  · refine ⟨?_, ?_, ?_⟩
    · rw [hab.calls, hab.confirmations]; exact ha.2.flatten
    · rw [hab.calls]; exact ha.2.sorted
    · rw [hab.calls]; exact ha.2.closed

/-- **Within a call records are confirmed in the order of their names. What a confirmed record
points to is confirmed in an earlier call or in the same one**, so that after every call the
stored records are closed under pointers. -/
theorem confirmed_in_name_order (hpos : 1 ≤ P.config.confirmWeight)
    (hsmall : P.config.SmallWeights) (h : Reachable P Backend.empty certManager s) :
    s.calls.reverse.flatten = s.confirmations.reverse ∧
    (∀ call ∈ s.calls,
      (call.map fun r => r.getRecordName P.ndn).Pairwise fun x y => compare x y = .lt) ∧
    (∀ newer call older, s.calls = newer ++ call :: older → ∀ r ∈ call,
      ∀ p ∈ r.recordPointers, ∃ r', r'.getRecordName P.ndn = p ∧
        (r' ∈ call ∨ ∃ call' ∈ older, r' ∈ call')) ∧
    (∀ (n : Name) (d : Data), s.backend.getRecord P.ndn n = some d →
      ∃ r, Record.ofData P.ndn d = .ok r ∧
        ∀ p ∈ r.recordPointers, ∃ d', s.backend.getRecord P.ndn p = some d') := by
  have hcalls := h.callsInv hpos hsmall
  refine ⟨hcalls.flatten, hcalls.sorted, hcalls.closed, fun n d hd => ?_⟩
  obtain ⟨r, hr, _, hp⟩ := (h.stored hpos hsmall).decoded n d hd
  exact ⟨r, hr, hp⟩

/-- One of the calls confirms two records. -/
theorem confirmed_in_name_order_crossingPackets :
    let P := Sample.peer (Sample.config 1 5 2)
    let s := (Sample.run P () Sample.crossingPackets).1
    (∃ call ∈ s.calls, call.length = 2) ∧
    s.calls.reverse.flatten = s.confirmations.reverse ∧
    (∀ call ∈ s.calls,
      (call.map fun r => r.getRecordName P.ndn).Pairwise fun x y => compare x y = .lt) ∧
    (∀ newer call older, s.calls = newer ++ call :: older → ∀ r ∈ call,
      ∀ p ∈ r.recordPointers, ∃ r', r'.getRecordName P.ndn = p ∧
        (r' ∈ call ∨ ∃ call' ∈ older, r' ∈ call')) ∧
    (∀ (n : Name) (d : Data), s.backend.getRecord P.ndn n = some d →
      ∃ r, Record.ofData P.ndn d = .ok r ∧
        ∀ p ∈ r.recordPointers, ∃ d', s.backend.getRecord P.ndn p = some d') :=
  ⟨by decide +kernel, confirmed_in_name_order (P := Sample.peer (Sample.config 1 5 2)) (by decide)
    (Sample.smallWeights (by decide) (by decide)) (Sample.reachable_run (by decide +kernel))⟩

/-- **A record can be confirmed before a record it points to.** One call confirms the first two
of these records, and the name of the second comes first. -/
theorem not_ancestorsFirst_crossingPackets :
    ∃ s, Reachable (Sample.peer (Sample.config 1 5 2)) Backend.empty () s ∧
      ¬ AncestorsFirst Sample.ndn s.confirmations := by
  set s := (Sample.run (Sample.peer (Sample.config 1 5 2)) () Sample.crossingPackets).1 with hs
  have hlength : s.confirmations.length = 3 := by decide +kernel
  have hpointers : s.confirmations.map Record.recordPointers
      = [[Sample.genesis], [Sample.ndn.fullName (Sample.packet 99 0 [Sample.genesis])], []] := by
    decide +kernel
  have hnames : s.confirmations.map (fun r => r.getRecordName Sample.ndn)
      = [Sample.ndn.fullName (Sample.packet 99 0 [Sample.genesis]),
        Sample.ndn.fullName (Sample.packet 97 0
          [Sample.ndn.fullName (Sample.packet 99 0 [Sample.genesis])]), Sample.genesis] := by
    decide +kernel
  refine ⟨s, Sample.reachable_run (by decide +kernel), fun hfirst => ?_⟩
  obtain ⟨p, y, g, heq⟩ := List.length_eq_three.1 hlength
  rw [heq] at hpointers hnames
  simp only [List.map_cons, List.map_nil, List.cons.injEq] at hpointers hnames
  -- only the genesis record was confirmed before the second record
  obtain ⟨r, hr, hname⟩ :=
    hfirst [p] y [g] heq _ (by rw [hpointers.2.1]; exact List.mem_singleton_self _)
  rw [List.mem_singleton.1 hr, hnames.2.2.1] at hname
  revert hname
  decide +kernel

end LedgerImpl

end DLedger
