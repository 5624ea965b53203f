import DLedger.Ledger.Light

set_option autoImplicit false

/-! # What a ledger loses

A name is held while its record is seen or waits in the sync stack. A call lets go of it in three
ways only: the entry of the stack has waited for more than `ancestorFetchTimeout`, an addition
evicts the record, or it erases the record as deep. What is erased as deep is stored, when writes
succeed and records are confirmed before they are deep.
-/

namespace DLedger

open Tlv (Bytes Block)

namespace LedgerImpl

variable {σ : Type} {P : Peer σ} {amb : Ambient} {received : Data → Prop}
  {s s' a b : LedgerImpl σ} {p : Name} {record : Record} {endorseVerified : Bool} {n : Name}
  {marked : Finset Name} {names : List Name} {mid : TailMap}

/-- Whether a record of a name waits in the sync stack. -/
def waits (P : Peer σ) (s : LedgerImpl σ) (n : Name) : Bool :=
  s.syncStack.any fun it => it.1.getRecordName P.ndn == n

theorem waits_iff : waits P s p = true ↔ ∃ it ∈ s.syncStack, it.1.getRecordName P.ndn = p := by
  simp only [waits, List.any_eq_true, beq_iff_eq]

theorem waits_of_mem {it : Record × Int} (h : it ∈ s.syncStack) :
    waits P s (it.1.getRecordName P.ndn) = true :=
  waits_iff.2 ⟨it, h, rfl⟩

def Held (P : Peer σ) (s : LedgerImpl σ) (p : Name) : Prop :=
  s.seenRecord P p = true ∨ waits P s p = true

/-! ## The reasons -/

/-- From one state to the next, a name is lost to a timeout: its record has waited in the sync
stack for too long, or it is evicted when a record is added. -/
inductive TimedOut (P : Peer σ) (amb : Ambient) (p : Name) (a : LedgerImpl σ) :
    LedgerImpl σ → Prop where
  | waited {b : LedgerImpl σ} {it : Record × Int} (waiting : it ∈ a.syncStack)
      (name : it.1.getRecordName P.ndn = p)
      (late : P.config.ancestorFetchTimeout < |amb.now - it.2|) : TimedOut P amb p a b
  | evicted {record : Record} {endorseVerified : Bool} {n : Name} {b : LedgerImpl σ}
      {marked : Finset Name} {names : List Name} {mid : TailMap} (stack : List (Record × Int))
      (added : Added P amb record endorseVerified n a b marked names mid)
      (evicted : Evicted mid.lookup P.config amb p) : TimedOut P amb p a (b.withStack stack)

/-- A tailing record is erased as deep when a record is added. -/
inductive ErasedDeep (P : Peer σ) (amb : Ambient) (p : Name) (a : LedgerImpl σ) :
    LedgerImpl σ → Prop where
  | mk {record : Record} {endorseVerified : Bool} {n : Name} {b : LedgerImpl σ}
      {marked : Finset Name} {names : List Name} {mid : TailMap} {t : TailingRecordState}
      (stack : List (Record × Int))
      (added : Added P amb record endorseVerified n a b marked names mid) (mem : p ∈ marked)
      (walked : walked amb record endorseVerified n a.tailRecords.lookup marked p = some t)
      (deep : IsDeep P t) : ErasedDeep P amb p a (b.withStack stack)

/-- In a call, one of the moves lets go of a name, for this reason. -/
def LosesBy (P : Peer σ) (amb : Ambient) (why : LedgerImpl σ → LedgerImpl σ → Prop) (p : Name)
    (s s' : LedgerImpl σ) : Prop :=
  ∃ a b, Moves P amb s a ∧ Move P amb a b ∧ Moves P amb b s' ∧ Held P a p ∧ ¬ Held P b p ∧ why a b

theorem LosesBy.head {why : LedgerImpl σ → LedgerImpl σ → Prop} {s₁ : LedgerImpl σ}
    (hmoves : Moves P amb s s₁) (h : LosesBy P amb why p s₁ s') : LosesBy P amb why p s s' := by
  obtain ⟨a, b, hbefore, hrest⟩ := h
  exact ⟨a, b, hmoves.trans hbefore, hrest⟩

/-! ## Every loss has a reason -/

/-- What is seen before an addition, and the new record, is seen after it or has left the tail. -/
theorem Added.seen_or (h : Added P amb record endorseVerified n s s' marked names mid)
    (hp : s.seenRecord P p = true ∨ n = p) :
    s'.seenRecord P p = true ∨ Evicted mid.lookup P.config amb p ∨
      p ∈ marked ∧ ∃ t, walked amb record endorseVerified n s.tailRecords.lookup marked p = some t ∧
        IsDeep P t := by
  have hwalked : ∀ t, walked amb record endorseVerified n s.tailRecords.lookup marked p = some t →
      s'.seenRecord P p = true ∨ Evicted mid.lookup P.config amb p ∨ p ∈ marked ∧ ∃ t,
        walked amb record endorseVerified n s.tailRecords.lookup marked p = some t ∧
          IsDeep P t := by
    intro t ht
    rcases h.tail_or ht with htail | ⟨hmarked, hdeep⟩ | ⟨_, hevicted⟩
    · exact Or.inl (seenRecord_iff.2 (Or.inl ⟨t, htail⟩))
    · exact Or.inr (Or.inr ⟨hmarked, t, ht, hdeep⟩)
    · exact Or.inr (Or.inl hevicted)
  by_cases hne : n = p
  · subst hne
    exact hwalked _ h.walked_self
  rcases seenRecord_iff.1 (hp.resolve_right hne) with ⟨t, ht⟩ | ⟨d, hd⟩
  · exact hwalked _ (by rw [Added.walked_of_ne hne, ht, Option.map_some])
  · exact Or.inl (seenRecord_iff.2 (Or.inr (h.backend_mono hd)))

/-- An addition keeps a name that is seen or that is the new one, or it has a reason. -/
theorem Added.held_or (h : Added P amb record endorseVerified n s s' marked names mid)
    (stack : List (Record × Int)) (hp : s.seenRecord P p = true ∨ n = p) :
    Held P (s'.withStack stack) p ∨ TimedOut P amb p s (s'.withStack stack) ∨
      ErasedDeep P amb p s (s'.withStack stack) := by
  rcases h.seen_or hp with hseen | hevicted | ⟨hmarked, t, ht, hdeep⟩
  · exact Or.inl (Or.inl hseen)
  · exact Or.inr (Or.inl (TimedOut.evicted stack h hevicted))
  · exact Or.inr (Or.inr (ErasedDeep.mk stack h hmarked ht hdeep))

/-- **A move keeps a name that is held, or it has a reason.** -/
theorem Held.move (hs : LedgerCore P a) (hp : Held P a p) (h : Move P amb a b) :
    Held P b p ∨ TimedOut P amb p a b ∨ ErasedDeep P amb p a b := by
  cases h with
  | create built new added =>
      rcases hs.tail.created built added with rfl | ⟨_, marked, names, mid, h⟩
      · exact Or.inl hp
      have hstack : b.withStack a.syncStack = b := by
        rw [← h.syncStack, withStack_self]
      rcases hp with hseen | hwaits
      · rw [← hstack]
        exact h.held_or a.syncStack (Or.inl hseen)
      · rw [waits, ← h.syncStack] at hwaits
        exact Or.inl (Or.inr hwaits)
  | receive h =>
      cases h with
      | emit quiet => exact Or.inl hp
      | push receive decoded type_ne unseen unstacked checked =>
          refine Or.inl (hp.imp_right fun hwaits => ?_)
          obtain ⟨it, hit, hname⟩ := waits_iff.1 hwaits
          exact waits_iff.2 ⟨it, List.mem_append_left _ hit, hname⟩
      | @drop before rest it stack late =>
          rcases hp with hseen | hwaits
          · exact Or.inl (Or.inl hseen)
          obtain ⟨it', hit', hname⟩ := waits_iff.1 hwaits
          have hmem := hit'
          rw [stack, List.mem_append, List.mem_cons] at hmem
          rcases hmem with hbefore | rfl | hrest
          · exact Or.inl (Or.inr (waits_iff.2 ⟨it', List.mem_append_left _ hbefore, hname⟩))
          · exact Or.inr (Or.inl (TimedOut.waited hit' hname late))
          · exact Or.inl (Or.inr (waits_iff.2 ⟨it', List.mem_append_right _ hrest, hname⟩))
      | @resolve s₁ before rest it data endorseVerified stack ready data_eq endorse added =>
          have hit : it ∈ a.syncStack := by rw [stack]; simp
          obtain ⟨n, marked, names, mid, hn, _, h⟩ := hs.addition_stack hit ready added
          rcases hp with hseen | hwaits
          · exact h.held_or (before ++ rest) (Or.inl hseen)
          -- the entry that is resolved becomes the new record, the others wait on
          obtain ⟨it', hit', hname⟩ := waits_iff.1 hwaits
          rw [stack, List.mem_append, List.mem_cons] at hit'
          rcases hit' with hbefore | rfl | hrest
          · exact Or.inl (Or.inr (waits_iff.2 ⟨it', List.mem_append_left _ hbefore, hname⟩))
          · exact h.held_or (before ++ rest) (Or.inr (hn.symm.trans hname))
          · exact Or.inl (Or.inr (waits_iff.2 ⟨it', List.mem_append_right _ hrest, hname⟩))

/-- **A call keeps a name that is held, or it loses it for a reason.** -/
theorem Held.moves (hs : LedgerCore P s) (hp : Held P s p) (h : Moves P amb s s') :
    Held P s' p ∨ LosesBy P amb (TimedOut P amb p) p s s' ∨
      LosesBy P amb (ErasedDeep P amb p) p s s' := by
  induction h using Relation.ReflTransGen.head_induction_on with
  | refl => exact Or.inl hp
  | @head s s₁ hmove hmoves ih =>
      have hfirst : Moves P amb s s₁ := Relation.ReflTransGen.single hmove
      by_cases hheld : Held P s₁ p
      · exact (ih (hs.move hmove) hheld).imp_right
          (Or.imp (LosesBy.head hfirst) (LosesBy.head hfirst))
      · right
        rcases hp.move hs hmove with hkept | htime | hdeep
        · exact absurd hkept hheld
        · exact Or.inl ⟨s, s₁, Relation.ReflTransGen.refl, hmove, hmoves, hp, hheld, htime⟩
        · exact Or.inr ⟨s, s₁, Relation.ReflTransGen.refl, hmove, hmoves, hp, hheld, hdeep⟩

/-! ## What is deep is stored -/

/-- Tailing records that have reached `confirmWeight` are stored. -/
def HeavyStored (P : Peer σ) (s : LedgerImpl σ) : Prop :=
  ∀ (n : Name) (t : TailingRecordState), s.tailRecords[n]? = some t →
    P.config.confirmWeight ≤ t.refSet.card → ∃ d, s.backend.getRecord P.ndn n = some d

section Heavy

variable (hpos : 1 ≤ P.config.confirmWeight)
include hpos

/-- After a walk they are stored by the end of the call, if what crosses is written. -/
theorem HeavyStored.walked (hs : HeavyStored P s)
    (h : Added P amb record endorseVerified n s s' marked names mid)
    (hput : ∀ m ∈ marked, amb.putOk m = true) {x : Name} {t' : TailingRecordState}
    (ht' : walked amb record endorseVerified n s.tailRecords.lookup marked x = some t')
    (hc : P.config.confirmWeight ≤ t'.refSet.card) :
    ∃ d, s'.backend.getRecord P.ndn x = some d := by
  rcases h.weight_cases ht' with ⟨_, hzero | ht⟩ | ⟨hx, t, ht, _, hcard⟩
  · omega
  · exact h.stored_iff.2 (Or.inl (hs x t' ht hc))
  · by_cases hcross : t'.refSet.card = P.config.confirmWeight
    · exact h.stored_iff.2 (Or.inr ⟨hput x hx, hx, t', ht', hcross⟩)
    · exact h.stored_iff.2 (Or.inl (hs x t ht (by omega)))

theorem HeavyStored.added (hs : HeavyStored P s)
    (h : Added P amb record endorseVerified n s s' marked names mid)
    (hput : ∀ m ∈ marked, amb.putOk m = true) : HeavyStored P s' :=
  fun _ _ ht hc => hs.walked hpos h hput (h.walked_of_tail ht) hc

theorem HeavyStored.move (hs : HeavyStored P s) (hcore : LedgerCore P s)
    (hput : Ambient.Writes amb) (h : Move P amb s s') : HeavyStored P s' := by
  cases h with
  | create built new added =>
      rcases hcore.tail.created built added with rfl | ⟨_, marked, names, mid, h⟩
      · exact hs
      · exact hs.added hpos h.toAdded fun m _ => hput m
  | receive h =>
      cases h with
      | emit quiet => exact hs
      | push receive decoded type_ne unseen unstacked checked => exact hs
      | drop stack late => exact hs
      | @resolve s₁ before rest it data endorseVerified stack ready data_eq endorse added =>
          have hit : it ∈ s.syncStack := by rw [stack]; simp
          obtain ⟨n, marked, names, mid, _, _, h⟩ := hcore.addition_stack hit ready added
          have hheavy : HeavyStored P s₁ := hs.added hpos h.toAdded fun m _ => hput m
          exact hheavy

theorem HeavyStored.moves (hs : HeavyStored P s) (hcore : LedgerCore P s)
    (hput : Ambient.Writes amb) (h : Moves P amb s s') : HeavyStored P s' := by
  induction h with
  | refl => exact hs
  | tail hmoves hmove ih => exact ih.move hpos (hcore.moves hmoves) hput hmove

/-- The genesis records confirm nothing, so it holds after the constructor whatever is written. -/
theorem construct_heavyStored {db : Backend} {certManager : σ}
    (h : construct P amb db certManager = (s, .ok ())) : HeavyStored P s := by
  have hblank : HeavyStored P (blank db certManager) := by
    intro n t ht
    simp [blank] at ht
  obtain ⟨_, s₁, hrun, rfl⟩ := construct_ok h
  obtain ⟨_, _, hheavy⟩ := addGenesis_induction hblank
    (fun _ _ _ _ _ _ _ ha hpointers hadded => ha.added hpos hadded.toAdded fun m hm => by
      rw [hadded.marked_eq_empty hpointers] at hm
      exact absurd hm (Finset.notMem_empty m)) hrun
  have hsame : SameRecords s₁ (sendSyncInterest amb s₁).1 := sendSyncInterest_sameRecords s₁
  intro n t ht hc
  rw [hsame.tailRecords] at ht
  rw [hsame.backend]
  exact hheavy n t ht hc

end Heavy

/-- **Where writes succeed and records are confirmed before they are deep, no call loses a deep
record.** -/
theorem HeavyStored.not_losesBy (hs : HeavyStored P s) (hcore : LedgerCore P s)
    (hconfirms : P.config.Confirms) (hput : Ambient.Writes amb) :
    ¬ LosesBy P amb (ErasedDeep P amb p) p s s' := by
  rintro ⟨a, b, hmoves, _, _, _, hnot, ⟨stack, hadded, hmem, hwalked, hdeep⟩⟩
  have hheavy := hs.moves hconfirms.1 hcore hput hmoves
  have hstored := hheavy.walked hconfirms.1 hadded (fun m _ => hput m) hwalked
    (hconfirms.2.trans (hadded.leaveWeight_le hmem hwalked hdeep))
  exact hnot (Or.inl (seenRecord_iff.2 (Or.inr hstored)))

end LedgerImpl

end DLedger
