import Mathlib.Data.Set.Card
import Mathlib.Logic.Relation
import Mathlib.Tactic

set_option autoImplicit false

/-! # Items of a graph that arrive one after another

Each item has parents. The first part is about items that wait until all their parents are
placed: what is placed when nothing can be added any more does not depend on the order in
which the items arrived.

In the second part an item is judged when it arrives, after its parents. It is admitted when
all its parents are and none of them is reached by admitted items of too many producers. Here
the order can matter. `mem_admitted_iff_of_settled` says for which items it does not.
-/

namespace Arrival

variable {ν α : Type}

/-! ## Waiting for the parents -/

section Waiting

variable (base item : Set ν) (parent : ν → ν → Prop)

/-- What can be placed: the base, and each item whose parents all can. -/
inductive Available : ν → Prop where
  | base {x : ν} (h : x ∈ base) : Available x
  | item {x : ν} (h : x ∈ item) (parents : ∀ p, parent x p → Available p) : Available x

variable {base item parent}

/-- **What is placed is determined**, when it holds the base, it holds only what can be placed,
and it leaves no item out whose parents it holds. -/
theorem mem_placed_iff {placed : Set ν} (hbase : base ⊆ placed)
    (hsound : ∀ x ∈ placed, Available base item parent x)
    (hrest : ∀ x ∈ item, (∀ p, parent x p → p ∈ placed) → x ∈ placed) (x : ν) :
    x ∈ placed ↔ Available base item parent x := by
  refine ⟨hsound x, fun h => ?_⟩
  induction h with
  | base h => exact hbase h
  | item h _ ih => exact hrest _ h ih

end Waiting

/-! ## Judged on arrival -/

section Admission

variable (parent : ν → ν → Prop) (producer : ν → α) (sound : ν → Prop) (limit : ℕ)

/-- The producers of the admitted items that reach a node, without its own. -/
def counted (admitted : Set ν) (p : ν) : Set α :=
  {a | a ≠ producer p ∧ ∃ y ∈ admitted, producer y = a ∧ Relation.TransGen parent y p}

/-- The verdict over an item. -/
def Admits (admitted : Set ν) (x : ν) : Prop :=
  sound x ∧ ∀ p, parent x p → p ∈ admitted ∧ (counted parent producer admitted p).encard ≤ limit

/-- What is admitted after an item has arrived. -/
def arrive (admitted : Set ν) (x : ν) : Set ν :=
  {y | y ∈ admitted ∨ y = x ∧ Admits parent producer sound limit admitted x}

/-- What is admitted when the items of a list arrive in order. -/
def admitted (base : Set ν) (order : List ν) : Set ν :=
  order.foldl (arrive parent producer sound limit) base

variable {parent producer sound limit} {base : Set ν}

@[simp] theorem admitted_nil : admitted parent producer sound limit base [] = base := rfl

theorem mem_admitted_concat {order : List ν} {x y : ν} :
    y ∈ admitted parent producer sound limit base (order ++ [x]) ↔
      y ∈ admitted parent producer sound limit base order ∨
        y = x ∧ Admits parent producer sound limit
          (admitted parent producer sound limit base order) x := by
  rw [admitted, List.foldl_append]
  rfl

/-- Only what arrives is admitted. -/
theorem mem_of_mem_admitted {order : List ν} {y : ν}
    (h : y ∈ admitted parent producer sound limit base order) : y ∈ base ∨ y ∈ order := by
  induction order using List.reverseRecOn with
  | nil => exact Or.inl h
  | append_singleton order x ih =>
      rw [mem_admitted_concat] at h
      rcases h with h | ⟨rfl, _⟩
      · exact (ih h).imp_right fun hy => List.mem_append_left _ hy
      · exact Or.inr (List.mem_append_right _ (List.mem_singleton_self y))

/-- A verdict is final: what arrives later does not change it. -/
theorem mem_admitted_append_iff {order later : List ν} {y : ν} (hy : y ∉ later) :
    y ∈ admitted parent producer sound limit base (order ++ later) ↔
      y ∈ admitted parent producer sound limit base order := by
  induction later using List.reverseRecOn with
  | nil => rw [List.append_nil]
  | append_singleton later x ih =>
      rw [List.mem_append, not_or] at hy
      rw [← List.append_assoc, mem_admitted_concat, ih hy.1]
      refine or_iff_left fun h => ?_
      exact hy.2 (h.1 ▸ List.mem_singleton_self y)

theorem base_subset_admitted {order : List ν} {y : ν} (hy : y ∈ base) :
    y ∈ admitted parent producer sound limit base order := by
  induction order using List.reverseRecOn with
  | nil => exact hy
  | append_singleton order x ih => exact mem_admitted_concat.2 (Or.inl ih)

/-- An item is judged by what is admitted before it. -/
theorem mem_admitted_iff {before later : List ν} {x : ν} (hbase : x ∉ base)
    (hnodup : (before ++ x :: later).Nodup) :
    x ∈ admitted parent producer sound limit base (before ++ x :: later) ↔
      Admits parent producer sound limit
        (admitted parent producer sound limit base before) x := by
  obtain ⟨hx, _⟩ := List.nodup_cons.1 (List.nodup_middle.1 hnodup)
  rw [List.mem_append, not_or] at hx
  rw [List.append_cons, mem_admitted_append_iff hx.2, mem_admitted_concat]
  refine ⟨fun h => ?_, fun h => Or.inr ⟨rfl, h⟩⟩
  rcases h with h | ⟨_, h⟩
  · exact absurd (mem_of_mem_admitted h) (not_or.2 ⟨hbase, hx.1⟩)
  · exact h

/-! ### Orders -/

/-- An item arrives before another. -/
def Before (order : List ν) (y x : ν) : Prop :=
  ∃ before later, order = before ++ x :: later ∧ y ∈ before

variable (parent base) in
/-- A list that holds each item once, outside the base, and after its parents. -/
structure ParentsFirst (order : List ν) : Prop where
  nodup : order.Nodup
  outside : ∀ x ∈ order, x ∉ base
  parents : ∀ before x later, order = before ++ x :: later →
    ∀ p, parent x p → p ∈ base ∨ p ∈ before

theorem before_iff {before later : List ν} {x y : ν} (hnodup : (before ++ x :: later).Nodup) :
    Before (before ++ x :: later) y x ↔ y ∈ before := by
  refine ⟨fun ⟨before', later', heq, hy⟩ => ?_, fun hy => ⟨before, later, rfl, hy⟩⟩
  obtain ⟨hx, _⟩ := List.nodup_cons.1 (List.nodup_middle.1 hnodup)
  rw [List.mem_append, not_or] at hx
  rcases List.append_eq_append_iff.1 heq with ⟨mid, rfl, hmid⟩ | ⟨mid, rfl, hmid⟩
  · cases mid with
    | nil => rwa [List.append_nil] at hy
    | cons z mid =>
        rw [List.cons_append, List.cons.injEq] at hmid
        exact absurd (hmid.2 ▸ List.mem_append_right _ List.mem_cons_self) hx.2
  · exact List.mem_append_left _ hy

/-- Everything that an item reaches arrives before it, or it was there from the start. -/
theorem ParentsFirst.reaches {order before later : List ν} {x z : ν}
    (h : ParentsFirst parent base order) (hroot : ∀ b ∈ base, ∀ p, ¬ parent b p)
    (horder : order = before ++ x :: later) (hz : Relation.TransGen parent x z) :
    z ∈ base ∨ z ∈ before := by
  induction hz with
  | single hz => exact h.parents before x later horder _ hz
  | @tail y z _ hz ih =>
      rcases ih with hy | hy
      · exact absurd hz (hroot y hy z)
      · obtain ⟨u, v, rfl⟩ := List.append_of_mem hy
        rw [List.append_assoc, List.cons_append] at horder
        exact (h.parents u y _ horder z hz).imp_right fun hz => List.mem_append_left _ hz

/-! ### Where the order does not matter -/

variable (parent producer) in
/-- The producers, other than that of `p`, of the items that reach `p` and may arrive before
`x`, since they are not on top of it. -/
def rivals (item : Set ν) (x p : ν) : Set α :=
  {a | a ≠ producer p ∧ ∃ y ∈ item, producer y = a ∧ Relation.TransGen parent y p ∧
    y ≠ x ∧ ¬ Relation.TransGen parent y x}

variable (parent producer limit base) in
/-- A part of the items whose verdicts do not depend on which of two orders they arrive in. Each
parent of an item of this part has few rivals, or the same items that reach it arrive before
the item in both orders, and they are of this part too. -/
structure Settled (order order' : List ν) (part : Set ν) : Prop where
  sub : ∀ x ∈ part, x ∈ order
  parents : ∀ x ∈ part, ∀ p, parent x p → p ∈ base ∨ p ∈ part
  competing : ∀ x ∈ part, ∀ p, parent x p →
    (rivals parent producer {y | y ∈ order} x p).encard ≤ limit ∨
      ∀ y, Relation.TransGen parent y p →
        (Before order y x ↔ Before order' y x) ∧ (Before order y x → y ∈ part)

section Orders

variable {order order' : List ν} (h : ParentsFirst parent base order)
  (h' : ParentsFirst parent base order') (hroot : ∀ b ∈ base, ∀ p, ¬ parent b p)
  (hsame : ∀ x, x ∈ order ↔ x ∈ order')
include h hroot

variable (producer sound limit) in
/-- Few rivals admit an item wherever it arrives. -/
theorem ParentsFirst.counted_subset {before later : List ν} {x p : ν}
    (horder : order = before ++ x :: later) :
    counted parent producer (admitted parent producer sound limit base before) p
      ⊆ rivals parent producer {y | y ∈ order} x p := by
  rintro a ⟨ha, y, hy, hya, hreach⟩
  have hnodup := h.nodup
  rw [horder] at hnodup
  obtain ⟨hx, _⟩ := List.nodup_cons.1 (List.nodup_middle.1 hnodup)
  rw [List.mem_append, not_or] at hx
  have hybase : y ∉ base := fun hyb => by
    obtain ⟨z, hz, _⟩ := Relation.TransGen.head'_iff.1 hreach
    exact hroot y hyb z hz
  have hybefore := (mem_of_mem_admitted hy).resolve_left hybase
  refine ⟨ha, y, ?_, hya, hreach, ?_, fun hyx => ?_⟩
  · rw [Set.mem_ofPred_eq, horder]
    exact List.mem_append_left _ hybefore
  · rintro rfl
    exact hx.1 hybefore
  · obtain ⟨u, v, rfl⟩ := List.append_of_mem hybefore
    rw [List.append_assoc, List.cons_append] at horder
    rcases h.reaches hroot horder hyx with hxb | hxu
    · exact h.outside x (by rw [horder]; simp) hxb
    · exact hx.1 (List.mem_append_left _ hxu)

include h' hsame

/-- **The verdicts over the items of a settled part are the same in both orders.** -/
theorem mem_admitted_iff_of_settled {part : Set ν}
    (hsettled : Settled parent producer limit base order order' part) {x : ν} (hx : x ∈ part) :
    x ∈ admitted parent producer sound limit base order ↔
      x ∈ admitted parent producer sound limit base order' := by
  obtain ⟨before, later, horder⟩ := List.append_of_mem (hsettled.sub x hx)
  -- by the number of items that arrive before `x` in the first order
  induction hlen : before.length using Nat.strong_induction_on generalizing x before later with
  | _ n ih =>
      subst hlen
      obtain ⟨before', later', horder'⟩ :=
        List.append_of_mem ((hsame x).1 (hsettled.sub x hx))
      have hnodup := h.nodup
      have hnodup' := h'.nodup
      rw [horder] at hnodup
      rw [horder'] at hnodup'
      have hxbase := h.outside x (hsettled.sub x hx)
      -- an item before `x` of this part is admitted before `x` in both orders, or in neither
      have hearlier : ∀ y ∈ part, y ∈ before → y ∈ before' →
          (y ∈ admitted parent producer sound limit base before ↔
            y ∈ admitted parent producer sound limit base before') := by
        intro y hy hyb hyb'
        have hlater : y ∉ x :: later := (List.disjoint_of_nodup_append hnodup) hyb
        have hlater' : y ∉ x :: later' := (List.disjoint_of_nodup_append hnodup') hyb'
        obtain ⟨u, v, huv⟩ := List.append_of_mem hyb
        have hsplit : order = u ++ y :: (v ++ x :: later) := by
          rw [horder, huv, List.append_assoc, List.cons_append]
        have hlt : u.length < before.length := by rw [huv]; simp
        have heq := ih u.length hlt hy u _ hsplit rfl
        rw [horder, horder', mem_admitted_append_iff hlater,
          mem_admitted_append_iff hlater'] at heq
        exact heq
      rw [horder, horder', mem_admitted_iff hxbase hnodup, mem_admitted_iff hxbase hnodup']
      refine and_congr_right fun _ => forall_congr' fun p => ?_
      refine imp_congr_right fun hp => and_congr ?_ ?_
      · rcases hsettled.parents x hx p hp with hpb | hpart
        · exact iff_of_true (base_subset_admitted hpb) (base_subset_admitted hpb)
        · have hpbase := h.outside p (hsettled.sub p hpart)
          exact hearlier p hpart ((h.parents before x later horder p hp).resolve_left hpbase)
            ((h'.parents before' x later' horder' p hp).resolve_left hpbase)
      · rcases hsettled.competing x hx p hp with hfew | hbefore
        · have hitems : {y | y ∈ order'} = {y | y ∈ order} := Set.ext fun y => (hsame y).symm
          have hsub' := h'.counted_subset producer sound limit hroot horder' (p := p)
          rw [hitems] at hsub'
          exact iff_of_true
            ((Set.encard_le_encard (h.counted_subset producer sound limit hroot horder)).trans hfew)
            ((Set.encard_le_encard hsub').trans hfew)
        · -- the same items count for the parent
          have hsame' : counted parent producer
                (admitted parent producer sound limit base before) p
              = counted parent producer
                (admitted parent producer sound limit base before') p := by
            ext a
            refine and_congr_right fun _ => exists_congr fun y => ?_
            constructor
            · rintro ⟨hy, hya, hreach⟩
              obtain ⟨hiff, hpart⟩ := hbefore y hreach
              have hyb := (mem_of_mem_admitted hy).resolve_left fun hyb => by
                obtain ⟨z, hz, _⟩ := Relation.TransGen.head'_iff.1 hreach
                exact hroot y hyb z hz
              rw [horder, before_iff hnodup, horder', before_iff hnodup'] at hiff
              rw [horder, before_iff hnodup] at hpart
              exact ⟨(hearlier y (hpart hyb) hyb (hiff.1 hyb)).1 hy, hya, hreach⟩
            · rintro ⟨hy, hya, hreach⟩
              obtain ⟨hiff, hpart⟩ := hbefore y hreach
              have hyb' := (mem_of_mem_admitted hy).resolve_left fun hyb => by
                obtain ⟨z, hz, _⟩ := Relation.TransGen.head'_iff.1 hreach
                exact hroot y hyb z hz
              rw [horder, before_iff hnodup, horder', before_iff hnodup'] at hiff
              rw [horder, before_iff hnodup] at hpart
              have hyb := hiff.2 hyb'
              exact ⟨(hearlier y (hpart hyb) hyb hyb').2 hy, hya, hreach⟩
          rw [hsame']

/-- So the same items are admitted, when all of them are settled. -/
theorem admitted_eq_of_settled {part : Set ν}
    (hsettled : Settled parent producer limit base order order' part)
    (hall : ∀ x ∈ order, x ∈ part) :
    admitted parent producer sound limit base order
      = admitted parent producer sound limit base order' := by
  ext x
  by_cases hx : x ∈ part
  · exact mem_admitted_iff_of_settled h h' hroot hsame hsettled hx
  by_cases hxbase : x ∈ base
  · exact iff_of_true (base_subset_admitted hxbase) (base_subset_admitted hxbase)
  · have hnot : x ∉ order := fun hxo => hx (hall x hxo)
    refine iff_of_false (fun hmem => ?_) fun hmem => ?_
    · exact (mem_of_mem_admitted hmem).elim hxbase hnot
    · exact (mem_of_mem_admitted hmem).elim hxbase fun hxo => hnot ((hsame x).2 hxo)

end Orders

end Admission

end Arrival
