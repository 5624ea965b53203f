import DLedger.Ledger.Tailing
import DLedger.Lib.Cascade

set_option autoImplicit false

/-! # What eviction removes

A tailing record is expired when it is unconfirmed and older than the timeout. It is evicted
when a path of pointers inside the tail leads from it to an expired record.
-/

namespace DLedger

open Tlv (Bytes Block)

section Abstract

variable (lookup : Name → Option TailingRecordState)

/-- A pointer from one tailing record to another. -/
def TailPointer (x y : Name) : Prop :=
  ∃ t, lookup x = some t ∧ y ∈ t.record.recordPointers ∧ (lookup y).isSome = true

def Expired (config : Config) (amb : Ambient) (t : TailingRecordState) : Prop :=
  t.refSet.card < config.confirmWeight ∧
    t.addedTime < amb.now - config.blockConfirmationTimeout

/-- A path of pointers inside the tail leads to an expired record. -/
def Evicted (config : Config) (amb : Ambient) (x : Name) : Prop :=
  ∃ y t, lookup y = some t ∧ Expired config amb t ∧
    Relation.ReflTransGen (TailPointer lookup) x y

variable {lookup} {config : Config} {amb : Ambient}

theorem Evicted.of_expired {x : Name} {t : TailingRecordState} (ht : lookup x = some t)
    (h : Expired config amb t) : Evicted lookup config amb x :=
  ⟨x, t, ht, h, Relation.ReflTransGen.refl⟩

/-- A record that points to an evicted one is evicted. -/
theorem Evicted.of_pointer {x y : Name} {t u : TailingRecordState} (hx : lookup x = some t)
    (hy : lookup y = some u) (hxy : y ∈ t.record.recordPointers)
    (h : Evicted lookup config amb y) : Evicted lookup config amb x := by
  obtain ⟨z, v, hz, hv, hyz⟩ := h
  exact ⟨z, v, hz, hv, Relation.ReflTransGen.head ⟨t, hx, hxy, by rw [hy]; rfl⟩ hyz⟩

/-- Only tailing records are evicted. -/
theorem Evicted.exists_lookup {x : Name} (h : Evicted lookup config amb x) :
    ∃ t, lookup x = some t := by
  obtain ⟨y, u, hy, _, hxy⟩ := h
  rcases Relation.ReflTransGen.cases_head hxy with rfl | ⟨z, ⟨t, ht, _⟩, _⟩
  · exact ⟨u, hy⟩
  · exact ⟨t, ht⟩

/-- What holds of every expired record, and of every record that points to one it holds of,
holds of every evicted record. -/
theorem Evicted.induction {motive : Name → TailingRecordState → Prop}
    (expired : ∀ x t, lookup x = some t → Expired config amb t → motive x t)
    (pointer : ∀ x t y u, lookup x = some t → lookup y = some u →
      y ∈ t.record.recordPointers → motive y u → motive x t)
    {x : Name} (h : Evicted lookup config amb x) {t : TailingRecordState}
    (ht : lookup x = some t) : motive x t := by
  obtain ⟨z, v, hz, hv, hxz⟩ := h
  induction hxz using Relation.ReflTransGen.head_induction_on generalizing t with
  | refl => exact expired z t ht (by rw [hz] at ht; cases ht; exact hv)
  | @head a c hac _ ih =>
      obtain ⟨t', ht', hc, hsome⟩ := hac
      obtain ⟨u, hu⟩ := Option.isSome_iff_exists.1 hsome
      rw [ht'] at ht
      cases ht
      exact pointer a _ c u ht' hu hc (ih hu)

/-- What is evicted from a tail is evicted from a larger one. -/
theorem Evicted.mono {lookup' : Name → Option TailingRecordState}
    (hsub : ∀ x t, lookup x = some t → lookup' x = some t) {x : Name}
    (h : Evicted lookup config amb x) : Evicted lookup' config amb x := by
  obtain ⟨t, ht⟩ := h.exists_lookup
  refine h.induction (motive := fun x _ => Evicted lookup' config amb x) ?_ ?_ ht
  · intro x t ht hexpired
    exact Evicted.of_expired (hsub x t ht) hexpired
  · intro x t y u ht hu hy hevicted
    exact hevicted.of_pointer (hsub x t ht) (hsub y u hu) hy

end Abstract

/-! ## The generations of the source -/

namespace LedgerImpl

theorem foldl_erase_getElem? (names : List Name) (tail : TailMap) (x : Name) :
    (names.foldl (fun tail i => tail.erase i) tail)[x]?
      = if x ∈ names then none else tail[x]? := by
  induction names generalizing tail with
  | nil => simp
  | cons n names ih =>
      rw [List.foldl_cons, ih]
      simp only [Std.TreeMap.getElem?_erase, Std.LawfulEqOrd.compare_eq_iff_eq]
      by_cases hx : x ∈ names
      · simp [hx]
      · by_cases hn : n = x
        · simp [hn]
        · have hn' : x ≠ n := fun h => hn h.symm
          simp [hx, hn, hn']

theorem mem_childrenOf {timeoutList : List Name} {tail : TailMap} {x : Name} :
    x ∈ childrenOf timeoutList tail ↔
      ∃ t, tail[x]? = some t ∧ ∃ r ∈ t.record.recordPointers, r ∈ timeoutList := by
  simp only [childrenOf, List.mem_map, List.mem_filter, List.any_eq_true,
    List.contains_iff_mem]
  constructor
  · rintro ⟨⟨y, t⟩, ⟨hy, hr⟩, rfl⟩
    exact ⟨t, Std.TreeMap.mem_toList_iff_getElem?_eq_some.1 hy, hr⟩
  · rintro ⟨t, ht, hr⟩
    exact ⟨(x, t), ⟨Std.TreeMap.mem_toList_iff_getElem?_eq_some.2 ht, hr⟩, rfl⟩

theorem mem_timedOut {config : Config} {timeBefore : Int} {tail : TailMap} {x : Name} :
    x ∈ timedOut config timeBefore tail ↔ ∃ t, tail[x]? = some t ∧
      t.refSet.card < config.confirmWeight ∧ t.addedTime < timeBefore := by
  simp only [timedOut, List.mem_map, List.mem_filter, Bool.and_eq_true, decide_eq_true_eq]
  constructor
  · rintro ⟨⟨y, t⟩, ⟨hy, ht⟩, rfl⟩
    exact ⟨t, Std.TreeMap.mem_toList_iff_getElem?_eq_some.1 hy, ht⟩
  · rintro ⟨t, ht, hexp⟩
    exact ⟨(x, t), ⟨Std.TreeMap.mem_toList_iff_getElem?_eq_some.2 ht, hexp⟩, rfl⟩

/-- The names of the tail, and the pointers of each, for the library. -/
def tailNames (tail : TailMap) : Finset Name := tail.keys.toFinset

def pointersOf (tail : TailMap) (x : Name) : List Name :=
  (tail[x]?.map fun t => t.record.recordPointers).getD []

theorem mem_tailNames {tail : TailMap} {x : Name} :
    x ∈ tailNames tail ↔ (tail[x]?).isSome = true := by
  rw [tailNames, List.mem_toFinset, Std.TreeMap.mem_keys, Std.TreeMap.mem_iff_isSome_getElem?]

theorem card_tailNames_le (tail : TailMap) : (tailNames tail).card ≤ tail.size := by
  rw [tailNames, ← Std.TreeMap.length_keys]
  exact List.toFinset_card_le _

/-- What is left in the tail after a round. -/
theorem tailNames_foldl_erase (timeoutList : List Name) (tail : TailMap) :
    tailNames (timeoutList.foldl (fun tail i => tail.erase i) tail)
      = tailNames tail \ timeoutList.toFinset := by
  ext x
  rw [mem_tailNames, foldl_erase_getElem?, Finset.mem_sdiff, mem_tailNames, List.mem_toFinset]
  by_cases hx : x ∈ timeoutList <;> simp [hx]

theorem mem_pointersOf {tail : TailMap} {x r : Name} :
    r ∈ pointersOf tail x ↔ ∃ t, tail[x]? = some t ∧ r ∈ t.record.recordPointers := by
  unfold pointersOf
  cases tail[x]? <;> simp

/-- The generations of the source are those of the library, whatever `refs` says outside of
the tail. -/
theorem removeGenerations_getElem? (refs : Name → List Name) (fuel : Nat)
    (timeoutList : List Name) (tail : TailMap)
    (hrefs : ∀ x t, tail[x]? = some t → refs x = t.record.recordPointers) (x : Name) :
    (removeGenerations fuel timeoutList tail)[x]?
      = if x ∈ Cascade.prune refs fuel timeoutList.toFinset (tailNames tail) then tail[x]?
        else none := by
  have hself : ∀ tail : TailMap, tail[x]? = if x ∈ tailNames tail then tail[x]? else none := by
    intro tail
    split_ifs with h
    · rfl
    · exact Option.not_isSome_iff_eq_none.1 (mt mem_tailNames.2 h)
  -- one generation of the source is one of the library, on the tail without the last one
  induction fuel generalizing timeoutList tail with
  | zero => exact hself tail
  | succ fuel ih =>
      rw [removeGenerations, Cascade.prune]
      by_cases hempty : timeoutList = []
      · subst hempty
        exact hself tail
      · have hfin : timeoutList.toFinset ≠ ∅ := by
          rwa [ne_eq, List.toFinset_eq_empty_iff]
        have hlook := foldl_erase_getElem? timeoutList tail
        set tail' := timeoutList.foldl (fun tail i => tail.erase i) tail with htail'
        have hrefs' : ∀ y t, tail'[y]? = some t → refs y = t.record.recordPointers := by
          intro y t ht
          rw [hlook] at ht
          split_ifs at ht
          exact hrefs y t ht
        have halive : tailNames tail' = tailNames tail \ timeoutList.toFinset :=
          tailNames_foldl_erase timeoutList tail
        have hnext : (childrenOf timeoutList tail').toFinset
            = Cascade.referrers refs timeoutList.toFinset (tailNames tail') := by
          ext y
          rw [List.mem_toFinset, mem_childrenOf, Cascade.mem_referrers, mem_tailNames,
            Option.isSome_iff_exists]
          constructor
          · rintro ⟨t, ht, r, hr, hrt⟩
            exact ⟨⟨t, ht⟩, r, by rwa [hrefs' y t ht], List.mem_toFinset.2 hrt⟩
          · rintro ⟨⟨t, ht⟩, r, hr, hrt⟩
            exact ⟨t, ht, r, by rwa [← hrefs' y t ht], List.mem_toFinset.1 hrt⟩
        rw [if_neg (by simpa using hempty), if_neg hfin, ih _ _ hrefs', hnext, ← halive, hlook]
        by_cases hx : x ∈ timeoutList
        · have hout : x ∉ Cascade.prune refs fuel
              (Cascade.referrers refs timeoutList.toFinset (tailNames tail'))
              (tailNames tail') := by
            intro hmem
            have := mem_tailNames.1 (Cascade.prune_subset _ _ _ hmem)
            simp [hlook, hx] at this
          simp [hout]
        · simp [hx]

/-! ## The whole function -/

variable {σ : Type} (P : Peer σ) (amb : Ambient)

/-- **`removeTimeoutRecords` keeps exactly the records that are not evicted**, each with its
entry as it was. -/
theorem removeTimeoutRecords_getElem? (s : LedgerImpl σ) (x : Name) (t : TailingRecordState) :
    (removeTimeoutRecords P amb s).tailRecords[x]? = some t ↔
      s.tailRecords[x]? = some t ∧ ¬ Evicted s.tailRecords.lookup P.config amb x := by
  set timeoutList := timedOut P.config (amb.now - P.config.blockConfirmationTimeout)
    s.tailRecords
  have hmem : ∀ y, y ∈ timeoutList.toFinset ↔
      ∃ u, s.tailRecords[y]? = some u ∧ Expired P.config amb u := fun y => by
    rw [List.mem_toFinset, mem_timedOut]
    rfl
  have hsub : timeoutList.toFinset ⊆ tailNames s.tailRecords := by
    intro y hy
    obtain ⟨u, hu, _⟩ := (hmem y).1 hy
    rw [mem_tailNames, hu]; rfl
  have hrefs : ∀ y u, s.tailRecords[y]? = some u →
      pointersOf s.tailRecords y = u.record.recordPointers := by
    intro y u hu
    rw [pointersOf, hu]; rfl
  have hstep : ∀ y z, Cascade.Ref (pointersOf s.tailRecords) (tailNames s.tailRecords) y z ↔
      TailPointer s.tailRecords.lookup y z := by
    intro y z
    simp only [Cascade.Ref, TailPointer, mem_tailNames, mem_pointersOf]
    constructor
    · rintro ⟨_, hz, u, hu, hzu⟩
      exact ⟨u, hu, hzu, hz⟩
    · rintro ⟨u, hu, hzu, hz⟩
      exact ⟨by rw [show s.tailRecords[y]? = some u from hu]; rfl, hz, u, hu, hzu⟩
  -- what the library calls doomed is what leads to an expired record
  have hdoomed : Cascade.Doomed (pointersOf s.tailRecords) timeoutList.toFinset
      (tailNames s.tailRecords) x ↔ Evicted s.tailRecords.lookup P.config amb x := by
    constructor
    · rintro ⟨y, hy, hxy⟩
      obtain ⟨u, hu, he⟩ := (hmem y).1 hy
      exact ⟨y, u, hu, he, hxy.lift id fun a b => (hstep a b).1⟩
    · rintro ⟨y, u, hu, he, hxy⟩
      exact ⟨y, (hmem y).2 ⟨u, hu, he⟩, hxy.lift id fun a b => (hstep a b).2⟩
  have hrun : (removeTimeoutRecords P amb s).tailRecords[x]?
      = if x ∈ Cascade.prune (pointersOf s.tailRecords) (s.tailRecords.size + 1)
          timeoutList.toFinset (tailNames s.tailRecords) then s.tailRecords[x]? else none :=
    removeGenerations_getElem? _ _ timeoutList s.tailRecords hrefs x
  have hkept := Cascade.mem_prune_iff (pointersOf s.tailRecords) hsub
    (Nat.lt_succ_of_le (card_tailNames_le s.tailRecords)) x
  rw [hdoomed, mem_tailNames] at hkept
  rw [hrun]
  constructor
  · intro h
    split_ifs at h with hx
    exact ⟨h, (hkept.1 hx).2⟩
  · rintro ⟨ht, he⟩
    rw [if_pos (hkept.2 ⟨by rw [ht]; rfl, he⟩), ht]

end LedgerImpl

end DLedger
