import DLedger.Ledger.Evict
import DLedger.Lib.Worklist

set_option autoImplicit false

/-! # What the weight walk marks

The walk of `addToTailingRecord` is a search from the new record along the pointers of
tailing records. A record is open to it when it is in the tail, has another producer and does
not count this producer yet. On a tail whose verified entries are sound the walk succeeds,
and it marks exactly the records that a path of pointers through open records reaches.
-/

namespace DLedger

open Tlv (Bytes Block)

/-- Count a producer. -/
def TailingRecordState.mark (producer : Name) (t : TailingRecordState) : TailingRecordState :=
  { t with refSet := insert producer t.refSet }

/-! A mark changes the reference set alone. -/

section Mark

variable (c : Prop) [Decidable c] (producer : Name) (t : TailingRecordState)

@[simp] theorem ite_mark_record : (if c then t.mark producer else t).record = t.record := by
  split_ifs <;> rfl

@[simp] theorem ite_mark_recordEndorseVerified :
    (if c then t.mark producer else t).recordEndorseVerified = t.recordEndorseVerified := by
  split_ifs <;> rfl

@[simp] theorem ite_mark_parentEndorseVerified :
    (if c then t.mark producer else t).parentEndorseVerified = t.parentEndorseVerified := by
  split_ifs <;> rfl

@[simp] theorem ite_mark_addedTime :
    (if c then t.mark producer else t).addedTime = t.addedTime := by
  split_ifs <;> rfl

theorem mem_ite_mark {a : Name} :
    a ∈ (if c then t.mark producer else t).refSet ↔ (c ∧ a = producer) ∨ a ∈ t.refSet := by
  split_ifs with h <;> simp [TailingRecordState.mark, h]

/-- A mark takes no weight away. -/
theorem card_le_ite_mark :
    t.refSet.card ≤ (if c then t.mark producer else t).refSet.card := by
  refine Finset.card_le_card fun a ha => ?_
  rw [mem_ite_mark]
  exact Or.inr ha

end Mark

/-- What the walk needs of the verified entries: names that `RecordName` accepts, their own
and those of their pointers, and verified entries at the pointers. -/
structure Walkable (lookup : Name → Option TailingRecordState) : Prop where
  name : ∀ n t, lookup n = some t → t.parentEndorseVerified = true →
    RecordName.check n = .ok ()
  pointerName : ∀ n t, lookup n = some t → t.parentEndorseVerified = true →
    ∀ p ∈ t.record.recordPointers, RecordName.check p = .ok ()
  pointer : ∀ n t, lookup n = some t → t.parentEndorseVerified = true →
    ∀ p ∈ t.record.recordPointers, ∀ u, lookup p = some u → u.parentEndorseVerified = true

section Abstract

variable (lookup : Name → Option TailingRecordState) (producer : Name)

/-- Whether the walk of a producer marks a record it comes to. -/
def IsOpen (p : Name) : Prop :=
  RecordName.getProducerPrefix p ≠ producer ∧ ∃ t, lookup p = some t ∧ producer ∉ t.refSet

/-- The pointers that the walk follows from a name. -/
def header (c : Name) : List Name :=
  if RecordName.getRecordType c = .genesisRecord then []
  else ((lookup c).map fun t => t.record.recordPointers).getD []

/-- A path of the walk: one or more pointers, each to an open record. -/
def Marks (start x : Name) : Prop :=
  Relation.TransGen (Worklist.Edge (header lookup) (IsOpen lookup producer)) start x

variable {lookup producer}

theorem mem_header {c p : Name} : p ∈ header lookup c ↔
    RecordName.getRecordType c ≠ .genesisRecord ∧
      ∃ t, lookup c = some t ∧ p ∈ t.record.recordPointers := by
  unfold header
  split_ifs with h
  · simp [h]
  · cases lookup c <;> simp [h]

/-- What is marked is open. -/
theorem Marks.isOpen {start x : Name} (h : Marks lookup producer start x) :
    IsOpen lookup producer x := by
  cases h with
  | single h => exact h.2
  | tail _ h => exact h.2

/-- A verified record reaches verified records only. -/
theorem Marks.verified (hw : Walkable lookup) {start x : Name} {t : TailingRecordState}
    (ht : lookup start = some t) (hv : t.parentEndorseVerified = true)
    (h : Marks lookup producer start x) :
    ∃ u, lookup x = some u ∧ u.parentEndorseVerified = true := by
  have hstep : ∀ c p, (∃ u, lookup c = some u ∧ u.parentEndorseVerified = true) →
      Worklist.Edge (header lookup) (IsOpen lookup producer) c p →
      ∃ u, lookup p = some u ∧ u.parentEndorseVerified = true := by
    rintro c p ⟨u, hu, huv⟩ ⟨hp, _, v, hv, _⟩
    obtain ⟨_, u', hu', hp⟩ := mem_header.1 hp
    rw [hu] at hu'
    cases hu'
    exact ⟨v, hv, hw.pointer c u hu huv p hp v hv⟩
  induction h with
  | single h => exact hstep _ _ ⟨t, ht, hv⟩ h
  | tail _ h ih => exact hstep _ _ ih h

end Abstract

namespace LedgerImpl

variable {σ : Type}

/-- The state of the walk beside the state of the search. `s` is the ledger before the
walk. -/
structure Follows (s : LedgerImpl σ) (producer : Name) (w : WalkState σ)
    (st : Worklist.State Name) : Prop where
  stack : w.stack = st.stack
  updated : ∀ x, x ∈ w.updatedRecords ↔ x ∈ st.marked
  tail : ∀ x, w.ledger.tailRecords[x]? = (s.tailRecords[x]?).map fun t =>
    if x ∈ st.marked then t.mark producer else t
  rest : { w.ledger with tailRecords := s.tailRecords } = s
  tailing : ∀ x ∈ st.stack, ∃ t, s.tailRecords[x]? = some t

variable {P : Peer σ} {s : LedgerImpl σ} {record : Record} {producer : Name}

/-! ## One round -/

/-- What a round does that returns: nothing at a genesis record, and a visit of each pointer of a
verified record. `top` is the name that it has taken off the stack. -/
def WalkRound (P : Peer σ) (record : Record) (top : Name) (w w' : WalkState σ) : Prop :=
  RecordName.check top = .ok () ∧
    (RecordName.getRecordType top = .genesisRecord ∧ w' = w ∨
      RecordName.getRecordType top ≠ .genesisRecord ∧
        ∃ current, w.ledger.getRecord P top = .ok (some current) ∧
          Outcome.forEach (visitPointer record) current.recordPointers w = (w', .ok ()))

/-- **A walk returns when its first round does**, and then goes on from there. -/
theorem weightWalk_succ_iff {fuel : Nat} {top : Name} {stack : List Name} {w w' : WalkState σ}
    (hstack : w.stack = top :: stack) :
    weightWalk P record (fuel + 1) w = (w', .ok ()) ↔
      ∃ v, WalkRound P record top { w with stack } v ∧
        weightWalk P record fuel v = (w', .ok ()) := by
  constructor
  · intro hrun
    simp only [weightWalk, hstack] at hrun
    cases hname : RecordName.ofName top with
    | error e => rw [hname] at hrun; cases hrun
    | ok name =>
        have hcheck := RecordName.check_of_ofName hname
        simp only [hname, RecordName.ofName_eq_ok.1 hname] at hrun
        by_cases hgenesis : RecordName.getRecordType top = .genesisRecord
        · rw [if_pos hgenesis] at hrun
          exact ⟨_, ⟨hcheck, Or.inl ⟨hgenesis, rfl⟩⟩, hrun⟩
        · rw [if_neg hgenesis] at hrun
          rcases hget : ({ w with stack } : WalkState σ).ledger.getRecord P top
            with e | _ | current
          · rw [hget] at hrun; cases hrun
          · rw [hget] at hrun; cases hrun
          · simp only [hget] at hrun
            rcases hloop : Outcome.forEach (visitPointer record) current.recordPointers
              { w with stack } with ⟨v, f | ⟨⟨⟩⟩⟩
            · rw [hloop] at hrun; cases hrun
            · rw [hloop] at hrun
              exact ⟨v, ⟨hcheck, Or.inr ⟨hgenesis, current, hget, hloop⟩⟩, hrun⟩
  · rintro ⟨v, ⟨hcheck, ⟨hgenesis, rfl⟩ | ⟨hgenesis, current, hget, hloop⟩⟩, hrun⟩
    · simp only [weightWalk, hstack, RecordName.ofName_of_check hcheck, if_pos hgenesis]
      exact hrun
    · simp only [weightWalk, hstack, RecordName.ofName_of_check hcheck, if_neg hgenesis, hget,
        hloop]
      exact hrun

/-- What taking a name off the stack keeps, and each visit of a pointer, the walk keeps, however
it ends. -/
theorem weightWalk_invariant (I : WalkState σ → Prop)
    (hpop : ∀ (w : WalkState σ) stack, I w → I { w with stack })
    (hvisit : ∀ p w, I w → I (visitPointer record p w).1) (fuel : Nat) {w : WalkState σ}
    (h : I w) : I (weightWalk P record fuel w).1 := by
  -- the rounds that fault are included: what the loop over the pointers did is kept as well
  induction fuel generalizing w with
  | zero => exact h
  | succ fuel ih =>
      unfold weightWalk
      cases w.stack with
      | nil => exact h
      | cons top stack =>
          have hrest := hpop w stack h
          simp only
          cases RecordName.ofName top with
          | error e => exact hrest
          | ok name =>
              simp only
              split_ifs
              · exact ih hrest
              · rcases w.ledger.getRecord P top with e | _ | current
                · exact hrest
                · exact hrest
                · have hloop : I (Outcome.forEach (visitPointer record) current.recordPointers
                      { w with stack }).1 :=
                    Outcome.forEach_invariant I (fun p _ w hw => hvisit p w hw) hrest
                  simp only
                  rcases hrun : Outcome.forEach (visitPointer record) current.recordPointers
                      { w with stack } with ⟨w', f | ⟨⟨⟩⟩⟩
                  · rw [hrun] at hloop
                    exact hloop
                  · rw [hrun] at hloop
                    exact ih hloop

/-! ## The walk follows the search -/

open Classical in
/-- The body of the inner loop, when it returns, is one visit of the search. -/
theorem visitPointer_follows (hprod : record.getProducerPrefix = .ok producer) {p : Name}
    {w w' : WalkState σ} {st : Worklist.State Name} (h : Follows s producer w st)
    (hrun : visitPointer record p w = (w', .ok ())) :
    Follows s producer w' (Worklist.visit (IsOpen s.tailRecords.lookup producer) st p) := by
  unfold visitPointer at hrun
  cases hp : RecordName.ofName p with
  | error e => rw [hp] at hrun; cases hrun
  | ok preceding =>
      have hname : preceding.name = p := RecordName.ofName_eq_ok.1 hp
      simp only [hp, hprod, hname] at hrun
      -- a pointer is passed over for its own producer, or as it is not in the tail, or counted
      by_cases hown : RecordName.getProducerPrefix p = producer
      · rw [if_pos hown] at hrun
        cases hrun
        rw [Worklist.visit, if_neg (fun hopen => hopen.1.1 hown)]
        exact h
      · rw [if_neg hown, h.tail p] at hrun
        cases ht : s.tailRecords[p]? with
        | none =>
            rw [ht] at hrun
            cases hrun
            have hclosed : ¬ IsOpen s.tailRecords.lookup producer p := by
              rintro ⟨_, t, ht', _⟩
              rw [show s.tailRecords[p]? = some t from ht'] at ht
              cases ht
            rw [Worklist.visit, if_neg (fun hopen => hclosed hopen.1)]
            exact h
        | some t =>
            have hopen : IsOpen s.tailRecords.lookup producer p ↔ producer ∉ t.refSet := by
              constructor
              · rintro ⟨_, t', ht', hn⟩
                rw [show s.tailRecords[p]? = some t' from ht'] at ht
                cases ht
                exact hn
              · exact fun hn => ⟨hown, t, ht, hn⟩
            -- the entry counts the producer when it did before the walk or is marked by it
            have hnew : producer ∈ (if p ∈ st.marked then t.mark producer else t).refSet ↔
                ¬ (IsOpen s.tailRecords.lookup producer p ∧ p ∉ st.marked) := by
              rw [hopen]
              by_cases hm : p ∈ st.marked <;> simp [hm, TailingRecordState.mark]
            simp only [ht, Option.map_some, hnew] at hrun
            by_cases hvisit : IsOpen s.tailRecords.lookup producer p ∧ p ∉ st.marked
            · rw [if_neg (not_not.2 hvisit)] at hrun
              cases hrun
              rw [Worklist.visit, if_pos hvisit]
              refine ⟨?_, ?_, ?_, h.rest, ?_⟩
              · rw [h.stack]
              · intro x
                rw [Std.TreeSet.mem_insert, Std.LawfulEqOrd.compare_eq_iff_eq, h.updated x,
                  Finset.mem_insert, eq_comm]
              · intro x
                simp only [setTail_getElem?, if_neg hvisit.2]
                by_cases hx : p = x
                · subst hx
                  simp [ht, TailingRecordState.mark]
                · have hx' : x ≠ p := fun heq => hx heq.symm
                  simp [h.tail x, hx, hx']
              · intro x hx
                rcases List.mem_cons.1 hx with rfl | hx
                · exact ⟨t, ht⟩
                · exact h.tailing x hx
            · rw [if_pos hvisit] at hrun
              cases hrun
              rw [Worklist.visit, if_neg hvisit]
              exact h

/-- It returns at a record name. -/
theorem visitPointer_returns (hprod : record.getProducerPrefix = .ok producer) {p : Name}
    (hp : RecordName.check p = .ok ()) (w : WalkState σ) :
    ∃ w', visitPointer record p w = (w', .ok ()) := by
  unfold visitPointer
  simp only [RecordName.ofName_of_check hp, hprod]
  split_ifs
  · exact ⟨w, rfl⟩
  · cases w.ledger.tailRecords[p]? with
    | none => exact ⟨w, rfl⟩
    | some t =>
        simp only
        split_ifs <;> exact ⟨_, rfl⟩

/-- What the walk has taken off its stack: a record name, of a genesis record or of a verified
tailing record. -/
def Passed (lookup : Name → Option TailingRecordState) (x : Name) : Prop :=
  RecordName.check x = .ok () ∧ ∃ t, lookup x = some t ∧
    (RecordName.getRecordType x = .genesisRecord ∨ t.parentEndorseVerified = true)

/-- The start and what is marked is on the stack or has passed. -/
def PassedBy (lookup : Name → Option TailingRecordState) (start : Name)
    (st : Worklist.State Name) : Prop :=
  ∀ x, x = start ∨ x ∈ st.marked → x ∈ st.stack ∨ Passed lookup x

variable (producer) in
open Classical in
/-- What a round marks it puts on the stack. -/
theorem PassedBy.expand {lookup : Name → Option TailingRecordState} {start c : Name}
    {rest : List Name} {marked : Finset Name} (h : PassedBy lookup start ⟨c :: rest, marked⟩)
    (hc : Passed lookup c) : PassedBy lookup start
      (Worklist.expand (header lookup) (IsOpen lookup producer) c rest marked) := by
  intro x hx
  rw [Worklist.expand, Worklist.mem_foldl_visit_stack]
  by_cases hold : x = start ∨ x ∈ marked
  · rcases h x hold with hstack | hpassed
    · rcases List.mem_cons.1 hstack with rfl | hrest
      · exact Or.inr hc
      · exact Or.inl (Or.inl hrest)
    · exact Or.inr hpassed
  · rw [not_or] at hold
    exact Or.inl (Or.inr ⟨hx.resolve_left hold.1, hold.2⟩)

open Classical in
/-- **The rounds of a walk that returns are the rounds of the search**, and what they take off
the stack has passed. -/
theorem weightWalk_follows (hprod : record.getProducerPrefix = .ok producer) (start : Name)
    (fuel : Nat) {w w' : WalkState σ} {st : Worklist.State Name} (h : Follows s producer w st)
    (hpassed : PassedBy s.tailRecords.lookup start st)
    (hrun : weightWalk P record fuel w = (w', .ok ())) :
    Follows s producer w' (Worklist.run (header s.tailRecords.lookup)
        (IsOpen s.tailRecords.lookup producer) fuel st) ∧
      PassedBy s.tailRecords.lookup start (Worklist.run (header s.tailRecords.lookup)
        (IsOpen s.tailRecords.lookup producer) fuel st) := by
  induction fuel generalizing w st with
  | zero =>
      cases hrun
      exact ⟨h, hpassed⟩
  | succ fuel ih =>
      obtain ⟨_ | ⟨c, rest⟩, marked⟩ := st
      · have hstack : w.stack = [] := h.stack
        simp only [weightWalk, hstack] at hrun
        cases hrun
        exact ⟨h, hpassed⟩
      · have hstack : w.stack = c :: rest := h.stack
        obtain ⟨t, ht⟩ := h.tailing c List.mem_cons_self
        have hpop : Follows s producer { w with stack := rest } ⟨rest, marked⟩ :=
          ⟨rfl, h.updated, h.tail, h.rest, fun x hx => h.tailing x (List.mem_cons_of_mem c hx)⟩
        obtain ⟨v, ⟨hcheck, hround⟩, hnext⟩ := (weightWalk_succ_iff hstack).1 hrun
        rw [Worklist.run_cons]
        -- at a genesis record the search goes nowhere either: it has no pointers to follow
        rcases hround with ⟨hgenesis, rfl⟩ | ⟨hgenesis, current, hget, hloop⟩
        · have hexpand := hpassed.expand producer ⟨hcheck, t, ht, Or.inl hgenesis⟩
          have hempty : Worklist.expand (header s.tailRecords.lookup)
              (IsOpen s.tailRecords.lookup producer) c rest marked = ⟨rest, marked⟩ := by
            simp only [Worklist.expand, header, if_pos hgenesis, List.foldl_nil]
          rw [hempty] at hexpand ⊢
          exact ih hpop hexpand hnext
        · -- the record itself, whose flag the walk has not touched
          have hfound : t.parentEndorseVerified = true ∧ current = t.record := by
            simp only [getRecord, h.tail c, ht, Option.map_some, ite_mark_record,
              ite_mark_parentEndorseVerified] at hget
            split_ifs at hget with hv
            · cases hget
              exact ⟨hv, rfl⟩
            · cases hget
          obtain ⟨hv, rfl⟩ := hfound
          have hpointers : header s.tailRecords.lookup c = t.record.recordPointers := by
            simp only [header, if_neg hgenesis, ht, Option.map_some, Option.getD_some]
          have hexpand := hpassed.expand producer ⟨hcheck, t, ht, Or.inr hv⟩
          have hfollow := Outcome.forEach_ok_foldl (Follows s producer)
            (Worklist.visit (IsOpen s.tailRecords.lookup producer))
            (fun p _ w w' st hst hw' => visitPointer_follows hprod hst hw') hpop hloop
          rw [← hpointers] at hfollow
          exact ih hfollow hexpand hnext

open Classical in
/-- On a tail whose verified entries are sound the walk returns. -/
theorem weightWalk_returns (hw : Walkable s.tailRecords.lookup)
    (hprod : record.getProducerPrefix = .ok producer) (fuel : Nat) {w : WalkState σ}
    {st : Worklist.State Name} (h : Follows s producer w st)
    (hv : ∀ x ∈ st.stack, ∀ t, s.tailRecords[x]? = some t → t.parentEndorseVerified = true) :
    ∃ w', weightWalk P record fuel w = (w', .ok ()) := by
  induction fuel generalizing w st with
  | zero => exact ⟨w, rfl⟩
  | succ fuel ih =>
      obtain ⟨_ | ⟨c, rest⟩, marked⟩ := st
      · have hstack : w.stack = [] := h.stack
        exact ⟨w, by simp only [weightWalk, hstack]⟩
      · have hstack : w.stack = c :: rest := h.stack
        obtain ⟨t, ht⟩ := h.tailing c List.mem_cons_self
        have hvc := hv c List.mem_cons_self t ht
        have hpop : Follows s producer { w with stack := rest } ⟨rest, marked⟩ :=
          ⟨rfl, h.updated, h.tail, h.rest, fun x hx => h.tailing x (List.mem_cons_of_mem c hx)⟩
        have hvrest : ∀ x ∈ rest, ∀ u, s.tailRecords[x]? = some u →
            u.parentEndorseVerified = true := fun x hx => hv x (List.mem_cons_of_mem c hx)
        have hcheck := hw.name c t ht hvc
        by_cases hgenesis : RecordName.getRecordType c = .genesisRecord
        · obtain ⟨w', hnext⟩ := ih hpop hvrest
          exact ⟨w', (weightWalk_succ_iff hstack).2
            ⟨_, ⟨hcheck, Or.inl ⟨hgenesis, rfl⟩⟩, hnext⟩⟩
        · have hget : ({ w with stack := rest } : WalkState σ).ledger.getRecord P c
              = .ok (some t.record) := by
            simp only [getRecord, h.tail c, ht, Option.map_some, ite_mark_record,
              ite_mark_parentEndorseVerified, hvc, if_true]
          have hreturns : ∀ p ∈ t.record.recordPointers, ∀ w : WalkState σ,
              ∃ w', visitPointer record p w = (w', .ok ()) := fun p hp w =>
            visitPointer_returns hprod (hw.pointerName c t ht hvc p hp) w
          obtain ⟨v, hloop⟩ := Outcome.forEach_returns hreturns { w with stack := rest }
          have hfollow := Outcome.forEach_ok_foldl (Follows s producer)
            (Worklist.visit (IsOpen s.tailRecords.lookup producer))
            (fun p _ w w' st hst hw' => visitPointer_follows hprod hst hw') hpop hloop
          -- what the visits push is a pointer of a verified entry
          have hvpushed : ∀ x ∈ (t.record.recordPointers.foldl
              (Worklist.visit (IsOpen s.tailRecords.lookup producer)) ⟨rest, marked⟩).stack,
              ∀ u, s.tailRecords[x]? = some u → u.parentEndorseVerified = true := by
            intro x hx u hu
            rcases (Worklist.mem_foldl_visit_stack _ _ _).1 hx with hx | ⟨hx, hnew⟩
            · exact hvrest x hx u hu
            · have hmem := (Worklist.mem_foldl_visit_marked _ _ _).1 hx
              exact hw.pointer c t ht hvc x (hmem.resolve_left hnew).1 u hu
          obtain ⟨w', hnext⟩ := ih hfollow hvpushed
          exact ⟨w', (weightWalk_succ_iff hstack).2
            ⟨v, ⟨hcheck, Or.inr ⟨hgenesis, t.record, hget, hloop⟩⟩, hnext⟩⟩

/-- What the walk of a record leaves: the ledger with a set of records marked, each of which has
passed. -/
structure Walked (s : LedgerImpl σ) (start producer : Name) (w : WalkState σ)
    (marked : Finset Name) : Prop where
  mem_marked : ∀ x, x ∈ marked ↔ Marks s.tailRecords.lookup producer start x
  updated : ∀ x, x ∈ w.updatedRecords ↔ x ∈ marked
  tail : ∀ x, w.ledger.tailRecords[x]? = (s.tailRecords[x]?).map fun t =>
    if x ∈ marked then t.mark producer else t
  rest : { w.ledger with tailRecords := s.tailRecords } = s
  passed : ∀ x, x = start ∨ x ∈ marked → Passed s.tailRecords.lookup x

theorem follows_start (producer : Name) {start : Name} {t : TailingRecordState}
    (ht : s.tailRecords[start]? = some t) :
    Follows s producer ⟨s, [start], ∅⟩ ⟨[start], ∅⟩ := by
  refine ⟨rfl, ?_, ?_, rfl, ?_⟩
  · intro x; simp
  · intro x; simp
  · intro x hx
    rw [List.mem_singleton.1 hx]
    exact ⟨t, ht⟩

theorem isOpen_mem_tailNames {x : Name} (h : IsOpen s.tailRecords.lookup producer x) :
    x ∈ tailNames s.tailRecords := by
  obtain ⟨_, u, hu, _⟩ := h
  rw [mem_tailNames, show s.tailRecords[x]? = some u from hu]
  rfl

open Classical in
/-- The fuel suffices: nothing is left on the stack. -/
theorem search_stack (s : LedgerImpl σ) (producer start : Name) :
    (Worklist.run (header s.tailRecords.lookup) (IsOpen s.tailRecords.lookup producer)
      (s.tailRecords.size + 1) ⟨[start], ∅⟩).stack = [] := by
  have hcard := card_tailNames_le s.tailRecords
  apply Worklist.run_stack (fun x => isOpen_mem_tailNames) _ (Finset.empty_subset _)
  simp only [List.length_singleton, Finset.card_empty]
  omega

/-- **The walk of a tailing record that returns marks what it reaches**, and leaves nothing on the
stack. -/
theorem weightWalk_walked (hprod : record.getProducerPrefix = .ok producer) {start : Name}
    {t : TailingRecordState} (ht : s.tailRecords[start]? = some t) {w : WalkState σ}
    (hrun : weightWalk P record (s.tailRecords.size + 1) ⟨s, [start], ∅⟩ = (w, .ok ())) :
    w.stack = [] ∧ ∃ marked, Walked s start producer w marked := by
  classical
  have hstart : PassedBy s.tailRecords.lookup start ⟨[start], ∅⟩ := by
    intro x hx
    left
    simpa using hx
  obtain ⟨hfollow, hpassed⟩ :=
    weightWalk_follows hprod start (s.tailRecords.size + 1) (follows_start producer ht) hstart hrun
  have hempty := search_stack s producer start
  have hfuel := Nat.lt_succ_of_le (card_tailNames_le s.tailRecords)
  refine ⟨hfollow.stack.trans hempty, _,
    fun x => Worklist.mem_run_iff (fun x => isOpen_mem_tailNames) hfuel x, hfollow.updated,
    hfollow.tail, hfollow.rest, fun x hx => (hpassed x hx).resolve_left ?_⟩
  rw [hempty]
  exact List.not_mem_nil

/-- A walk that has emptied its stack stays where it is, whatever fuel is left. -/
theorem weightWalk_of_stack {fuel : Nat} {w w' : WalkState σ}
    (hrun : weightWalk P record fuel w = (w', .ok ())) (hstack : w'.stack = []) {more : Nat}
    (hmore : fuel ≤ more) : weightWalk P record more w = (w', .ok ()) := by
  induction fuel generalizing w more with
  | zero =>
      cases hrun
      cases more with
      | zero => rfl
      | succ more => simp only [weightWalk, hstack]
  | succ fuel ih =>
      obtain ⟨more, rfl⟩ : ∃ m, more = m + 1 := ⟨more - 1, by omega⟩
      have hle : fuel ≤ more := by omega
      cases hw : w.stack with
      | nil =>
          simp only [weightWalk, hw] at hrun ⊢
          exact hrun
      | cons top stack =>
          obtain ⟨v, hround, hnext⟩ := (weightWalk_succ_iff hw).1 hrun
          exact (weightWalk_succ_iff hw).2 ⟨v, hround, ih hnext hle⟩

end LedgerImpl

end DLedger
