import Mathlib.Data.Finset.Card
import Mathlib.Logic.Relation
import Mathlib.Tactic

set_option autoImplicit false

/-! # Marking the reachable nodes of a graph with a stack

The graph is given by the successors of each node. A search starts with one node on the
stack; it takes a node off the stack, marks each of its successors that is *open* and not
marked yet, and puts the newly marked nodes on the stack. The start is not marked, unless it
is reached.

`mem_run_iff` says that the nodes marked at the end are those that a path of one or more
steps through open nodes reaches. The graph may have cycles and need not be finite; only the
open nodes must be, and their number bounds the number of rounds (`run_stack`).
-/

namespace Worklist

variable {ν : Type} [DecidableEq ν] (succ : ν → List ν) (isOpen : ν → Prop)
  [DecidablePred isOpen]

/-- The stack, and the nodes marked so far. -/
structure State (ν : Type) where
  stack : List ν
  marked : Finset ν

/-- Mark a node and push it, if it is open and not marked. -/
def visit (st : State ν) (p : ν) : State ν :=
  if isOpen p ∧ p ∉ st.marked then ⟨p :: st.stack, insert p st.marked⟩ else st

/-- Take one node off the stack and visit its successors. -/
def expand (c : ν) (rest : List ν) (marked : Finset ν) : State ν :=
  (succ c).foldl (visit isOpen) ⟨rest, marked⟩

def run : Nat → State ν → State ν
  | 0, st => st
  | fuel + 1, st =>
      match st.stack with
      | [] => st
      | c :: rest => run fuel (expand succ isOpen c rest st.marked)

theorem run_cons (fuel : Nat) (c : ν) (rest : List ν) (marked : Finset ν) :
    run succ isOpen (fuel + 1) ⟨c :: rest, marked⟩
      = run succ isOpen fuel (expand succ isOpen c rest marked) := rfl

/-- One step of a path: to a successor that is open. -/
def Edge (c p : ν) : Prop := p ∈ succ c ∧ isOpen p

/-! ## One round -/

variable {succ isOpen}

theorem mem_visit_marked {st : State ν} {p x : ν} :
    x ∈ (visit isOpen st p).marked ↔ x ∈ st.marked ∨ (x = p ∧ isOpen p) := by
  unfold visit
  split_ifs with h
  · simp only [Finset.mem_insert]
    constructor
    · rintro (rfl | hx)
      · exact Or.inr ⟨rfl, h.1⟩
      · exact Or.inl hx
    · rintro (hx | ⟨rfl, _⟩)
      · exact Or.inr hx
      · exact Or.inl rfl
  · constructor
    · exact Or.inl
    · rintro (hx | ⟨rfl, ho⟩)
      · exact hx
      · by_contra hx; exact h ⟨ho, hx⟩

theorem mem_foldl_visit_marked (ps : List ν) (st : State ν) (x : ν) :
    x ∈ (ps.foldl (visit isOpen) st).marked ↔ x ∈ st.marked ∨ (x ∈ ps ∧ isOpen x) := by
  induction ps generalizing st with
  | nil => simp
  | cons p ps ih =>
      rw [List.foldl_cons, ih, mem_visit_marked, List.mem_cons]
      constructor
      · rintro ((h | ⟨rfl, ho⟩) | ⟨h, ho⟩)
        · exact Or.inl h
        · exact Or.inr ⟨Or.inl rfl, ho⟩
        · exact Or.inr ⟨Or.inr h, ho⟩
      · rintro (h | ⟨rfl | h, ho⟩)
        · exact Or.inl (Or.inl h)
        · exact Or.inl (Or.inr ⟨rfl, ho⟩)
        · exact Or.inr ⟨h, ho⟩

/-- What a visit puts on the stack is what it marks. -/
theorem mem_foldl_visit_stack (ps : List ν) (st : State ν) (x : ν) :
    x ∈ (ps.foldl (visit isOpen) st).stack ↔
      x ∈ st.stack ∨ (x ∈ (ps.foldl (visit isOpen) st).marked ∧ x ∉ st.marked) := by
  induction ps generalizing st with
  | nil => simp
  | cons p ps ih =>
      rw [List.foldl_cons, ih]
      have hsub : ∀ y, y ∈ (visit isOpen st p).marked →
          y ∈ (ps.foldl (visit isOpen) (visit isOpen st p)).marked :=
        fun y hy => (mem_foldl_visit_marked ps _ y).2 (Or.inl hy)
      by_cases h : isOpen p ∧ p ∉ st.marked
      · have hv : visit isOpen st p = ⟨p :: st.stack, insert p st.marked⟩ := if_pos h
        rw [hv] at hsub ⊢
        simp only [List.mem_cons, Finset.mem_insert] at hsub ⊢
        constructor
        · rintro ((rfl | hx) | ⟨hx, hn⟩)
          · exact Or.inr ⟨hsub x (Or.inl rfl), h.2⟩
          · exact Or.inl hx
          · exact Or.inr ⟨hx, fun hm => hn (Or.inr hm)⟩
        · rintro (hx | ⟨hx, hn⟩)
          · exact Or.inl (Or.inr hx)
          · by_cases hxp : x = p
            · exact Or.inl (Or.inl hxp)
            · exact Or.inr ⟨hx, fun hm => hm.elim hxp hn⟩
      · have hv : visit isOpen st p = st := if_neg h
        rw [hv]

variable (isOpen) in
/-- Marks and stack grow together. -/
theorem foldl_visit_length (ps : List ν) (st : State ν) :
    (ps.foldl (visit isOpen) st).stack.length + st.marked.card
      = st.stack.length + (ps.foldl (visit isOpen) st).marked.card := by
  induction ps generalizing st with
  | nil => simp
  | cons p ps ih =>
      rw [List.foldl_cons]
      have h := ih (visit isOpen st p)
      by_cases hp : isOpen p ∧ p ∉ st.marked
      · have hv : visit isOpen st p = ⟨p :: st.stack, insert p st.marked⟩ := if_pos hp
        rw [hv] at h ⊢
        rw [Finset.card_insert_of_notMem hp.2, List.length_cons] at h
        omega
      · rw [show visit isOpen st p = st from if_neg hp] at h ⊢
        exact h

/-! ## The invariant -/

/-- What holds between rounds: everything marked is reached, what is on the stack is the
start or marked, and the open successors of a reached node that has left the stack are
marked. -/
structure Inv (succ : ν → List ν) (isOpen : ν → Prop) (start : ν) (st : State ν) : Prop where
  reached : ∀ x ∈ st.marked, Relation.TransGen (Edge succ isOpen) start x
  stacked : ∀ x ∈ st.stack, x = start ∨ x ∈ st.marked
  closed : ∀ c, c = start ∨ c ∈ st.marked → c ∉ st.stack →
    ∀ p, Edge succ isOpen c p → p ∈ st.marked

omit [DecidableEq ν] [DecidablePred isOpen] in
theorem inv_start (start : ν) : Inv succ isOpen start ⟨[start], ∅⟩ where
  reached x hx := absurd hx (Finset.notMem_empty x)
  stacked x hx := Or.inl (List.mem_singleton.1 hx)
  closed c hc hn := by
    rcases hc with rfl | hc
    · exact absurd (List.mem_singleton_self c) hn
    · exact absurd hc (Finset.notMem_empty c)

theorem Inv.expand {start c : ν} {rest : List ν} {marked : Finset ν}
    (h : Inv succ isOpen start ⟨c :: rest, marked⟩) :
    Inv succ isOpen start (expand succ isOpen c rest marked) := by
  have hc : c = start ∨ c ∈ marked := h.stacked c List.mem_cons_self
  have hmark : ∀ x, x ∈ (Worklist.expand succ isOpen c rest marked).marked ↔
      x ∈ marked ∨ (x ∈ succ c ∧ isOpen x) := fun x => mem_foldl_visit_marked _ _ x
  have hstack : ∀ x, x ∈ (Worklist.expand succ isOpen c rest marked).stack ↔
      x ∈ rest ∨ (x ∈ (Worklist.expand succ isOpen c rest marked).marked ∧ x ∉ marked) :=
    fun x => mem_foldl_visit_stack _ _ x
  -- what is marked has a path, what is stacked is marked, and the nodes left behind are closed
  constructor
  · intro x hx
    rcases (hmark x).1 hx with hx | hx
    · exact h.reached x hx
    · rcases hc with rfl | hc
      · exact Relation.TransGen.single hx
      · exact (h.reached c hc).tail hx
  · intro x hx
    rcases (hstack x).1 hx with hx | hx
    · rcases h.stacked x (List.mem_cons_of_mem c hx) with hx | hx
      · exact Or.inl hx
      · exact Or.inr ((hmark x).2 (Or.inl hx))
    · exact Or.inr hx.1
  · intro y hy hn p hp
    rw [hstack, not_or] at hn
    by_cases hyc : y = c
    · exact (hmark p).2 (Or.inr (hyc ▸ hp))
    · -- a node marked in this round is on the stack, so `y` was there before
      have hold : y = start ∨ y ∈ marked := by
        rcases hy with hy | hy
        · exact Or.inl hy
        · by_contra hcon
          exact hn.2 ⟨hy, fun hm => hcon (Or.inr hm)⟩
      have hout : y ∉ c :: rest := by
        rw [List.mem_cons, not_or]; exact ⟨hyc, hn.1⟩
      exact (hmark p).2 (Or.inl (h.closed y hold hout p hp))

theorem Inv.run {start : ν} (fuel : Nat) {st : State ν} (h : Inv succ isOpen start st) :
    Inv succ isOpen start (run succ isOpen fuel st) := by
  induction fuel generalizing st with
  | zero => exact h
  | succ fuel ih =>
      obtain ⟨_ | ⟨c, rest⟩, marked⟩ := st
      · exact h
      · exact ih h.expand

/-! ## Termination -/

/-- The open nodes that are not marked, and the nodes on the stack, bound the rounds. -/
theorem run_stack {nodes : Finset ν} (hopen : ∀ x, isOpen x → x ∈ nodes) (fuel : Nat)
    {st : State ν} (hsub : st.marked ⊆ nodes)
    (hfuel : st.stack.length + nodes.card ≤ fuel + st.marked.card) :
    (run succ isOpen fuel st).stack = [] := by
  induction fuel generalizing st with
  | zero =>
      have := Finset.card_le_card hsub
      exact List.length_eq_zero_iff.1 (by simp only [run]; omega)
  | succ fuel ih =>
      obtain ⟨_ | ⟨c, rest⟩, marked⟩ := st
      · rfl
      · have hlen := foldl_visit_length isOpen (succ c) ⟨rest, marked⟩
        rw [run_cons]
        refine ih ?_ ?_
        · intro x hx
          rcases (mem_foldl_visit_marked _ _ x).1 hx with hx | hx
          · exact hsub hx
          · exact hopen x hx.2
        · simp only [List.length_cons] at hfuel
          simp only [expand]
          simp only at hlen
          omega

/-! ## The result -/

/-- **The search marks exactly what is reachable** by one or more steps through open
nodes. -/
theorem mem_run_iff {nodes : Finset ν} (hopen : ∀ x, isOpen x → x ∈ nodes) {start : ν}
    {fuel : Nat} (hfuel : nodes.card < fuel) (x : ν) :
    x ∈ (run succ isOpen fuel ⟨[start], ∅⟩).marked ↔
      Relation.TransGen (Edge succ isOpen) start x := by
  have hinv : Inv succ isOpen start (run succ isOpen fuel ⟨[start], ∅⟩) :=
    (inv_start start).run fuel
  have hstack : (run succ isOpen fuel ⟨[start], ∅⟩).stack = [] :=
    run_stack hopen fuel (Finset.empty_subset _) (by simp; omega)
  constructor
  · exact hinv.reached x
  · intro h
    induction h with
    | single h => exact hinv.closed start (Or.inl rfl) (by simp [hstack]) _ h
    | tail _ h ih => exact hinv.closed _ (Or.inr ih) (by simp [hstack]) _ h

end Worklist
