import Mathlib.Data.Set.Finite.Basic
import Mathlib.Logic.Relation
import Mathlib.Order.WellFoundedSet

set_option autoImplicit false

/-! # Links without cycles

A relation is acyclic when no node is reached from itself. It stays so when links go away, and when
links are added that all start in a node to which no link goes. From a node of a finite set that is
closed under an acyclic relation one comes to a node that has no links.
-/

namespace Dag

variable {α : Type} {r r' : α → α → Prop}

def Acyclic (r : α → α → Prop) : Prop := ∀ x, ¬ Relation.TransGen r x x

theorem Acyclic.mono (h : Acyclic r) (hsub : ∀ x y, r' x y → r x y) : Acyclic r' :=
  fun x hx => h x (Relation.TransGen.mono hsub x x hx)

/-- The links the other way round. -/
theorem Acyclic.swap (h : Acyclic r) : Acyclic fun x y => r y x :=
  fun x hx => h x (Relation.transGen_swap.1 hx)

theorem Acyclic.of_rank {rank : α → ℕ} (h : ∀ x y, r x y → rank y < rank x) : Acyclic r := by
  have hpath : ∀ x y, Relation.TransGen r x y → rank y < rank x := by
    intro x y hxy
    induction hxy with
    | single hstep => exact h _ _ hstep
    | tail _ hstep ih => exact (h _ _ hstep).trans ih
  exact fun x hx => lt_irrefl _ (hpath x x hx)

/-- A path that starts elsewhere does not use the links of a node to which no link goes. -/
theorem path_of_source {n : α} (hlink : ∀ x y, r' x y → r x y ∨ x = n) (hn : ∀ x, ¬ r' x n)
    {x y : α} (h : Relation.TransGen r' x y) : x = n ∨ Relation.TransGen r x y := by
  induction h using Relation.TransGen.head_induction_on with
  | single hxy =>
      rcases hlink _ _ hxy with hold | rfl
      · exact Or.inr (Relation.TransGen.single hold)
      · exact Or.inl rfl
  | head hxz _ ih =>
      rcases ih with rfl | hpath
      · exact absurd hxz (hn _)
      · rcases hlink _ _ hxz with hold | rfl
        · exact Or.inr (Relation.TransGen.head hold hpath)
        · exact Or.inl rfl

/-- **A node to which no link goes may get links of its own.** -/
theorem Acyclic.extend {n : α} (h : Acyclic r) (hlink : ∀ x y, r' x y → r x y ∨ x = n)
    (hn : ∀ x, ¬ r' x n) : Acyclic r' := by
  intro x hx
  rcases path_of_source hlink hn hx with rfl | hold
  · obtain ⟨y, _, hy⟩ := Relation.TransGen.tail'_iff.1 hx
    exact hn y hy
  · exact h x hold

/-- **From every node one comes to a node without links.** -/
theorem Acyclic.exists_sink (h : Acyclic r) {S : Set α} (hfinite : S.Finite)
    (hclosed : ∀ x ∈ S, ∀ y, r x y → y ∈ S) {x : α} (hx : x ∈ S) :
    ∃ y ∈ S, Relation.ReflTransGen r x y ∧ ∀ z, ¬ r y z := by
  have horder : IsStrictOrder α (fun y x => Relation.TransGen r x y) :=
    { irrefl := h, trans := fun _ _ _ hab hbc => hbc.trans hab }
  have hwf : S.WellFoundedOn fun y x => Relation.TransGen r x y := hfinite.wellFoundedOn
  refine hwf.induction (P := fun x => ∃ y ∈ S, Relation.ReflTransGen r x y ∧ ∀ z, ¬ r y z) hx
    fun x hx ih => ?_
  by_cases hlink : ∃ y, r x y
  · obtain ⟨y, hxy⟩ := hlink
    obtain ⟨z, hz, hpath, hsink⟩ :=
      ih y (hclosed x hx y hxy) (Relation.TransGen.single hxy)
    exact ⟨z, hz, hpath.head hxy, hsink⟩
  · exact ⟨x, hx, Relation.ReflTransGen.refl, fun y hxy => hlink ⟨y, hxy⟩⟩

end Dag
