import DLedger.Lib.Dag
import Mathlib.Data.Set.Card
import Mathlib.Tactic

set_option autoImplicit false

/-! # Pulling a graph of items

A node knows some items and has requests for others that are not answered. An item that is new to
it makes it request the parents that it does not know. When no request is left, what is known is
closed under parents. An answer brings one item, and the items are finitely many, so the answers
come to an end.
-/

namespace Pull

variable {ν : Type} {parent : ν → ν → Prop}

/-- What a node knows, and its requests that are not answered; a request can be made twice. -/
structure State (ν : Type) where
  known : Set ν
  outstanding : List ν

/-- An item is known or requested. -/
def State.Reached (st : State ν) (x : ν) : Prop := x ∈ st.known ∨ x ∈ st.outstanding

/-- Nothing is forgotten, and the parents of a new item are known or requested. -/
structure Step (parent : ν → ν → Prop) (st st' : State ν) : Prop where
  known : st.known ⊆ st'.known
  outstanding : ∀ x ∈ st.outstanding, st'.Reached x
  parents : ∀ x ∈ st'.known, x ∉ st.known → ∀ p, parent x p → st'.Reached p

/-- Every parent of a known item is known or requested. -/
def Closed (parent : ν → ν → Prop) (st : State ν) : Prop :=
  ∀ x ∈ st.known, ∀ p, parent x p → st.Reached p

variable {st st' : State ν} {x y : ν}

theorem Step.reached (h : Step parent st st') (hx : st.Reached x) : st'.Reached x := by
  rcases hx with hx | hx
  · exact Or.inl (h.known hx)
  · exact h.outstanding x hx

theorem Closed.step (hst : Closed parent st) (h : Step parent st st') : Closed parent st' := by
  intro x hx p hp
  by_cases hold : x ∈ st.known
  · exact h.reached (hst x hold p hp)
  · exact h.parents x hx hold p hp

/-! ## When no request is left -/

theorem State.Reached.known (hx : st.Reached x) (hnone : st.outstanding = []) : x ∈ st.known := by
  rcases hx with hx | hx
  · exact hx
  · rw [hnone] at hx
    exact absurd hx List.not_mem_nil

/-- **What is reached from a known item is known.** -/
theorem Closed.known_of_path (hst : Closed parent st) (hnone : st.outstanding = [])
    (hx : x ∈ st.known) (hpath : Relation.ReflTransGen parent x y) : y ∈ st.known := by
  induction hpath with
  | refl => exact hx
  | tail _ hstep ih => exact (hst _ ih _ hstep).known hnone

/-- **Nothing waits any more.** An item that waits has a parent that is not placed, which waits
then itself, and without cycles this cannot go on. -/
theorem Closed.none_waits (hst : Closed parent st) (hnone : st.outstanding = [])
    (hacyclic : Dag.Acyclic parent) {placed waiting : Set ν} (hfinite : waiting.Finite)
    (hknown : st.known = placed ∪ waiting)
    (hwaits : ∀ x ∈ waiting, ∃ p, parent x p ∧ p ∉ placed) : waiting = ∅ := by
  rw [Set.eq_empty_iff_forall_notMem]
  intro x hx
  have hnext : ∀ x ∈ waiting, ∃ p, parent x p ∧ p ∈ waiting := by
    intro x hx
    obtain ⟨p, hp, hplaced⟩ := hwaits x hx
    have hmem : p ∈ st.known := (hst x (by rw [hknown]; exact Or.inr hx) p hp).known hnone
    rw [hknown] at hmem
    exact ⟨p, hp, hmem.resolve_left hplaced⟩
  have hlinks : Dag.Acyclic fun x y => parent x y ∧ y ∈ waiting :=
    hacyclic.mono fun _ _ h => h.1
  obtain ⟨y, hy, _, hsink⟩ := hlinks.exists_sink hfinite (fun _ _ y h => h.2) hx
  obtain ⟨p, hp⟩ := hnext y hy
  exact hsink p hp

/-! ## The answers come to an end -/

/-- The items of a set that are not known. -/
def missing (items : Set ν) (st : State ν) : Set ν := items \ st.known

/-- A request for an item is answered. Only an item that was missing makes requests, and it makes
not more than so many. -/
structure Answer (items : Set ν) (width : ℕ) (st st' : State ν) : Prop where
  known : st.known ⊆ st'.known
  answered : ∃ x ∈ st'.known, ∃ requested,
    st'.outstanding.length + 1 = st.outstanding.length + requested ∧
      (requested = 0 ∨ x ∈ missing items st ∧ requested ≤ width)

/-- What is left to do: a request takes one answer, and an item that is missing can make some more
requests. -/
noncomputable def left (items : Set ν) (width : ℕ) (st : State ν) : ℕ :=
  st.outstanding.length + width * (missing items st).ncard

variable {items : Set ν} {width : ℕ}

/-- **Every answer leaves less to do.** -/
theorem Answer.left_lt (hfinite : items.Finite) (h : Answer items width st st') :
    left items width st' < left items width st := by
  obtain ⟨x, hknown, requested, hlength, hrequested⟩ := h.answered
  have hsub : missing items st' ⊆ missing items st := Set.sdiff_subset_sdiff_right h.known
  have hmissing : (missing items st).Finite := hfinite.sdiff
  unfold left
  rcases hrequested with hnone | ⟨hx, hwidth⟩
  · have hmul : width * (missing items st').ncard ≤ width * (missing items st).ncard :=
      Nat.mul_le_mul_left width (Set.ncard_le_ncard hsub hmissing)
    omega
  · -- the item was missing and is not any more
    have hcard : (missing items st').ncard < (missing items st).ncard :=
      Set.ncard_lt_ncard ⟨hsub, fun hback => (hback hx).2 hknown⟩ hmissing
    have hmul : width * (missing items st').ncard + width ≤ width * (missing items st).ncard := by
      rw [← Nat.mul_succ]
      exact Nat.mul_le_mul_left width hcard
    omega

/-- **So many answers there are at most**, one after another. -/
theorem answers_le (hfinite : items.Finite) (run : ℕ → State ν) {k : ℕ}
    (h : ∀ i < k, Answer items width (run i) (run (i + 1))) :
    k + left items width (run k) ≤ left items width (run 0) := by
  induction k with
  | zero => omega
  | succ k ih =>
      have hle := ih fun i hi => h i (by omega)
      have hlt := (h k (by omega)).left_lt hfinite
      omega

end Pull
