import DLedger.Ledger.Move

set_option autoImplicit false

/-! # A ledger beside its plain variant

The plain variant of a ledger never erases a deep record. `Refines` relates the state of a
ledger to that of its plain variant: they are equal but for the tail, and the tail of the
ledger is that of the variant without the deep records. A record that only the variant has in
its tail is endorsed and stored, so the two read the same.
-/

namespace DLedger

open Tlv (Bytes Block)

/-- The variant that does not execute the erase of deep records. -/
abbrev Peer.plain {σ : Type} (P : Peer σ) : Peer σ := { P with removesDeep := false }

/-- Two lists that are in the order of the names of their elements are equal when they have
the same elements. -/
theorem eq_of_sorted {α : Type} (name : α → Name) {a b : List α}
    (ha : a.Pairwise fun x y => compare (name x) (name y) = .lt)
    (hb : b.Pairwise fun x y => compare (name x) (name y) = .lt) (h : ∀ x, x ∈ a ↔ x ∈ b) :
    a = b := by
  have hirrefl : Std.Irrefl fun x y : α => compare (name x) (name y) = .lt :=
    ⟨fun x hx => by
      have hself : compare (name x) (name x) = .eq := Std.ReflCmp.compare_self
      rw [hself] at hx
      cases hx⟩
  have hantisymm : Std.Antisymm fun x y : α => compare (name x) (name y) = .lt :=
    ⟨fun x y hxy hyx => by
      have hswap : compare (name y) (name x) = (compare (name x) (name y)).swap :=
        Std.OrientedCmp.eq_swap
      rw [hswap, hxy] at hyx
      cases hyx⟩
  exact List.Pairwise.eq_of_mem_iff ha hb h

/-- The entries of a tail that pass a test, in the order of their names, are given by the
lookups that pass it. -/
theorem TailMap.filter_toList_congr {a b : TailMap} {f : Name × TailingRecordState → Bool}
    (h : ∀ (n : Name) (t : TailingRecordState), f (n, t) = true →
      (a[n]? = some t ↔ b[n]? = some t)) : a.toList.filter f = b.toList.filter f := by
  refine eq_of_sorted Prod.fst (Std.TreeMap.ordered_keys_toList.filter f)
    (Std.TreeMap.ordered_keys_toList.filter f) fun entry => ?_
  rw [List.mem_filter, List.mem_filter, Std.TreeMap.mem_toList_iff_getElem?_eq_some,
    Std.TreeMap.mem_toList_iff_getElem?_eq_some]
  constructor
  · rintro ⟨ha, hf⟩
    exact ⟨(h entry.1 entry.2 hf).1 ha, hf⟩
  · rintro ⟨hb, hf⟩
    exact ⟨(h entry.1 entry.2 hf).2 hb, hf⟩

namespace LedgerImpl

variable {σ : Type} {P : Peer σ} {amb : Ambient} {s q : LedgerImpl σ}

/-! ## The relation -/

/-- `q` is `s` with deep records in its tail. -/
structure TailRefines (P : Peer σ) (s q : LedgerImpl σ) : Prop where
  rest : q = s.withTail q.tailRecords
  tail_iff : ∀ (n : Name) (t : TailingRecordState), s.tailRecords[n]? = some t ↔
    q.tailRecords[n]? = some t ∧ t.refSet.card < P.config.removeWeight

/-- What holds where records have no pointers but those that a ledger creates itself: a record
counts at most that one producer, and where this makes it deep, the newest record stays a
tailing record. -/
structure Pointerless (P : Peer σ) (s q : LedgerImpl σ) : Prop where
  stack : ∀ it ∈ s.syncStack, it.1.recordPointers = []
  counted : ∀ (n : Name) (t : TailingRecordState), q.tailRecords[n]? = some t →
    t.refSet ⊆ {P.config.peerPrefix}
  newest : P.config.removeWeight ≤ 1 →
    (∃ (n : Name) (t : TailingRecordState), s.tailRecords[n]? = some t) ∨
      ∀ n : Name, q.tailRecords[n]? = none
  evicted : P.config.blockConfirmationTimeout < 0 → ∀ n : Name, q.tailRecords[n]? = none

/-- A ledger and its plain variant in step. -/
structure Refines (P : Peer σ) (s q : LedgerImpl σ) : Prop extends TailRefines P s q where
  inv : LedgerInv P s
  plain : LedgerInv P.plain q
  pointerless : P.config.precedingRecordNum = 0 → Pointerless P s q

namespace TailRefines

theorem backend (h : TailRefines P s q) : q.backend = s.backend := by rw [h.rest]; rfl
theorem syncStack (h : TailRefines P s q) : q.syncStack = s.syncStack := by rw [h.rest]; rfl
theorem lastCertRecords (h : TailRefines P s q) : q.lastCertRecords = s.lastCertRecords := by
  rw [h.rest]; rfl
theorem certManager (h : TailRefines P s q) : q.certManager = s.certManager := by
  rw [h.rest]; rfl
theorem log (h : TailRefines P s q) : q.log = s.log := by rw [h.rest]; rfl

theorem emit (h : TailRefines P s q) (e : Event) : TailRefines P (s.emit e) (q.emit e) :=
  ⟨by rw [h.rest]; rfl, h.tail_iff⟩

theorem withStack (h : TailRefines P s q) (stack : List (Record × Int)) :
    TailRefines P (s.withStack stack) (q.withStack stack) :=
  ⟨by rw [h.rest]; rfl, h.tail_iff⟩

/-- A name is looked up with the same result, or only the variant has it, as a deep record. -/
theorem lookup (h : TailRefines P s q) (n : Name) :
    (q.tailRecords[n]? = s.tailRecords[n]? ∧ ∀ t, s.tailRecords[n]? = some t →
        t.refSet.card < P.config.removeWeight) ∨
      ∃ t, s.tailRecords[n]? = none ∧ q.tailRecords[n]? = some t ∧
        P.config.removeWeight ≤ t.refSet.card := by
  cases hs : s.tailRecords[n]? with
  | some t =>
      obtain ⟨hq, hlight⟩ := (h.tail_iff n t).1 hs
      exact Or.inl ⟨hq, fun u hu => Option.some.inj hu ▸ hlight⟩
  | none =>
      cases hq : q.tailRecords[n]? with
      | none => exact Or.inl ⟨rfl, fun u hu => by cases hu⟩
      | some t =>
          refine Or.inr ⟨t, rfl, rfl, Nat.not_lt.1 fun hlight => ?_⟩
          rw [(h.tail_iff n t).2 ⟨hq, hlight⟩] at hs
          cases hs

end TailRefines

/-- The variant keeps a deep record that is endorsed and stored. -/
theorem TailInv.of_deep (hq : TailInv P.plain q) (hpos : 1 ≤ P.config.confirmWeight)
    (hsmall : P.config.SmallWeights) {n : Name} {t : TailingRecordState}
    (ht : q.tailRecords[n]? = some t) (hdeep : P.config.removeWeight ≤ t.refSet.card) :
    t.parentEndorseVerified = true ∧ ∃ d, q.backend.getRecord P.ndn n = some d ∧
      Record.ofData P.ndn d = .ok t.record := by
  have hconfirm := hsmall.confirmWeight_le.trans hdeep
  have hendorsed : t.recordEndorseVerified = true := by
    by_contra he
    rw [hq.sound.unmarked n t ht (Bool.eq_false_iff.2 he), Finset.card_empty] at hconfirm
    omega
  obtain ⟨d, hd, _⟩ := (hq.sound.named n t ht).exists_data
  exact ⟨(hq.sound.flags n t ht).trans hendorsed, d, (hq.confirmed n t ht hconfirm).trans hd,
    ((hq.sound.named n t ht).ofData_eq hd).1⟩

/-! ## The two read the same -/

namespace Refines

section Read

variable (h : Refines P s q) (hpos : 1 ≤ P.config.confirmWeight)
  (hsmall : P.config.SmallWeights)
include h hpos hsmall

/-- A name is looked up with the same result, or it is that of an endorsed and stored record
that only the variant has in its tail. -/
theorem read (n : Name) :
    (q.tailRecords[n]? = s.tailRecords[n]? ∧ ∀ t, s.tailRecords[n]? = some t →
        t.refSet.card < P.config.removeWeight) ∨
      ∃ t d, s.tailRecords[n]? = none ∧ q.tailRecords[n]? = some t ∧
        P.config.removeWeight ≤ t.refSet.card ∧ t.parentEndorseVerified = true ∧
        s.backend.getRecord P.ndn n = some d ∧ Record.ofData P.ndn d = .ok t.record := by
  rcases h.lookup n with hsame | ⟨t, hs, hq, hdeep⟩
  · exact Or.inl hsame
  · obtain ⟨hv, d, hd, hdec⟩ := h.plain.tail.of_deep hpos hsmall hq hdeep
    exact Or.inr ⟨t, d, hs, hq, hdeep, hv, h.backend ▸ hd, hdec⟩

theorem seenRecord (n : Name) : q.seenRecord P.plain n = s.seenRecord P n := by
  rw [LedgerImpl.seenRecord, LedgerImpl.seenRecord, h.backend,
    Std.TreeMap.contains_eq_isSome_getElem?, Std.TreeMap.contains_eq_isSome_getElem?]
  rcases h.read hpos hsmall n with ⟨hsame, _⟩ | ⟨t, d, hs, hq, _, _, hd, _⟩
  · rw [hsame]
  · rw [hs, hq, hd]
    rfl

theorem hasRecord (recordName : Bytes) :
    q.hasRecord P.plain recordName = s.hasRecord P recordName := by
  rw [LedgerImpl.hasRecord, LedgerImpl.hasRecord, h.backend]
  rcases h.read hpos hsmall (P.ndn.ofUri recordName) with
    ⟨hsame, _⟩ | ⟨t, d, hs, hq, _, hv, hd, _⟩
  · rw [hsame]
  · simp only [hs, hq, hv, hd]
    rfl

theorem getRecord (n : Name) : q.getRecord P.plain n = s.getRecord P n := by
  rw [LedgerImpl.getRecord, LedgerImpl.getRecord, h.backend]
  rcases h.read hpos hsmall n with ⟨hsame, _⟩ | ⟨t, d, hs, hq, _, hv, hd, hdec⟩
  · rw [hsame]
  · simp only [hs, hq, hv, hd, hdec, if_true]
    rfl

theorem listRecord (namePrefix : Bytes) :
    q.listRecord P.plain namePrefix = s.listRecord P namePrefix := by
  rw [LedgerImpl.listRecord, LedgerImpl.listRecord, h.backend]
  refine List.filter_congr fun n _ => ?_
  rcases h.read hpos hsmall n with ⟨hsame, _⟩ | ⟨t, d, hs, hq, _, hv, _, _⟩
  · rw [hsame]
  · simp only [hs, hq, hv]

/-- The variant finds a deep record in its tail and refuses it for its weight. -/
theorem contributionAllowed (pointers : List Name) :
    LedgerImpl.contributionAllowed P.plain pointers q
      = LedgerImpl.contributionAllowed P pointers s := by
  rw [LedgerImpl.contributionAllowed, LedgerImpl.contributionAllowed]
  congr 1
  funext p
  rcases h.read hpos hsmall p with ⟨hsame, _⟩ | ⟨t, d, hs, hq, hdeep, _⟩
  · rw [hsame]
  · have hlt := hsmall.contributionWeight_lt
    simp only [hs, hq, decide_eq_false_iff_not]
    omega

omit hpos hsmall in
theorem checkSyntaxValidityOfRecord (data : Data) :
    LedgerImpl.checkSyntaxValidityOfRecord P.plain amb data q
      = LedgerImpl.checkSyntaxValidityOfRecord P amb data s := by
  rw [h.rest]
  rfl

theorem checkEndorseValidityOfRecord (data : Data) :
    LedgerImpl.checkEndorseValidityOfRecord P.plain amb data q
      = LedgerImpl.checkEndorseValidityOfRecord P amb data s := by
  unfold LedgerImpl.checkEndorseValidityOfRecord
  cases Record.ofData P.ndn data with
  | error e => rfl
  | ok record => simp only [h.certManager, h.contributionAllowed hpos hsmall]

theorem readyToAdd (record : Record) :
    LedgerImpl.readyToAdd P.plain record q = LedgerImpl.readyToAdd P record s := by
  unfold LedgerImpl.readyToAdd
  simp only [h.hasRecord hpos hsmall, h.seenRecord hpos hsmall]

/-- A sync Interest names light records. -/
theorem frontier : LedgerImpl.frontier q = LedgerImpl.frontier s := by
  unfold LedgerImpl.frontier
  congr 1
  refine TailMap.filter_toList_congr fun n t hf => ?_
  simp only [Bool.and_eq_true, beq_iff_eq] at hf
  have hle := hsmall.confirmWeight_le
  rw [h.tail_iff n t, hf.2]
  exact ⟨fun hq => ⟨hq, by omega⟩, fun hq => hq.1⟩

omit hpos in
/-- The candidates of a new record are light. -/
theorem recordList (hweights : P.config.appendWeight ≤ P.config.contributionWeight) :
    LedgerImpl.recordList P.plain q = LedgerImpl.recordList P s := by
  unfold LedgerImpl.recordList
  congr 1
  refine TailMap.filter_toList_congr fun n t hf => ?_
  simp only [Bool.and_eq_true, decide_eq_true_eq] at hf
  have hlt := hsmall.contributionWeight_lt
  rw [h.tail_iff n t]
  exact ⟨fun hq => ⟨hq, by omega⟩, fun hq => hq.1⟩

end Read

end Refines

end LedgerImpl

end DLedger
