import Mathlib.Data.Finset.Card
import Mathlib.Logic.Relation
import Mathlib.Tactic

set_option autoImplicit false

/-! # Deleting nodes together with everything that refers to them

Each node of a finite set refers to some nodes. `prune` deletes a first generation of nodes,
then the nodes that refer to the generation just deleted, and so on until a generation is
empty. `mem_prune_iff` says that what remains are the nodes from which no path of references
leads to the first generation.
-/

namespace Cascade

variable {ν : Type} [DecidableEq ν] (refs : ν → List ν)

/-- The nodes of a set that refer to a node of the generation. -/
def referrers (generation alive : Finset ν) : Finset ν :=
  alive.filter fun x => ∃ r ∈ refs x, r ∈ generation

def prune : Nat → Finset ν → Finset ν → Finset ν
  | 0, _, alive => alive
  | fuel + 1, generation, alive =>
      if generation = ∅ then alive
      else prune fuel (referrers refs generation (alive \ generation)) (alive \ generation)

/-- A reference inside a set. -/
def Ref (alive : Finset ν) (x y : ν) : Prop := x ∈ alive ∧ y ∈ alive ∧ y ∈ refs x

/-- A path of references inside a set leads to a node of the generation. -/
def Doomed (generation alive : Finset ν) (x : ν) : Prop :=
  ∃ y ∈ generation, Relation.ReflTransGen (Ref refs alive) x y

variable {refs}

theorem referrers_subset (generation alive : Finset ν) :
    referrers refs generation alive ⊆ alive := Finset.filter_subset _ _

theorem mem_referrers {generation alive : Finset ν} {x : ν} :
    x ∈ referrers refs generation alive ↔ x ∈ alive ∧ ∃ r ∈ refs x, r ∈ generation := by
  rw [referrers, Finset.mem_filter]

omit [DecidableEq ν] in
theorem Doomed.of_mem {generation alive : Finset ν} {x : ν} (h : x ∈ generation) :
    Doomed refs generation alive x := ⟨x, h, Relation.ReflTransGen.refl⟩

omit [DecidableEq ν] in
/-- A node that refers to a doomed node is doomed. -/
theorem Doomed.of_ref {generation alive : Finset ν} {x y : ν}
    (h : Doomed refs generation alive y) (hxy : Ref refs alive x y) :
    Doomed refs generation alive x := by
  obtain ⟨z, hz, hyz⟩ := h
  exact ⟨z, hz, Relation.ReflTransGen.head hxy hyz⟩

/-- One round: what is doomed either goes now or is doomed by the next generation. -/
theorem doomed_iff_next {generation alive : Finset ν} (hsub : generation ⊆ alive) (x : ν) :
    Doomed refs generation alive x ↔ x ∈ generation ∨
      Doomed refs (referrers refs generation (alive \ generation)) (alive \ generation) x := by
  constructor
  · rintro ⟨y, hy, hxy⟩
    -- follow the path to the first node of the generation; the one before it refers to it
    induction hxy using Relation.ReflTransGen.head_induction_on with
    | refl => exact Or.inl hy
    | @head a c hac _ ih =>
        by_cases ha : a ∈ generation
        · exact Or.inl ha
        · right
          have halive : a ∈ alive \ generation := Finset.mem_sdiff.2 ⟨hac.1, ha⟩
          by_cases hcg : c ∈ generation
          · exact Doomed.of_mem (mem_referrers.2 ⟨halive, c, hac.2.2, hcg⟩)
          · exact (ih.resolve_left hcg).of_ref
              ⟨halive, Finset.mem_sdiff.2 ⟨hac.2.1, hcg⟩, hac.2.2⟩
  · rintro (hx | ⟨y, hy, hxy⟩)
    · exact Doomed.of_mem hx
    · have hmono : ∀ a b, Ref refs (alive \ generation) a b → Ref refs alive a b :=
        fun a b hab =>
          ⟨(Finset.mem_sdiff.1 hab.1).1, (Finset.mem_sdiff.1 hab.2.1).1, hab.2.2⟩
      obtain ⟨hyalive, r, hr, hrg⟩ := mem_referrers.1 hy
      exact ⟨r, hrg, Relation.ReflTransGen.tail (hxy.lift id hmono)
        ⟨(Finset.mem_sdiff.1 hyalive).1, hsub hrg, hr⟩⟩

theorem prune_subset (fuel : Nat) (generation alive : Finset ν) :
    prune refs fuel generation alive ⊆ alive := by
  induction fuel generalizing generation alive with
  | zero => exact Finset.Subset.refl _
  | succ fuel ih =>
      rw [prune]
      split_ifs
      · exact Finset.Subset.refl _
      · exact (ih _ _).trans Finset.sdiff_subset

variable (refs) in
/-- **What remains** is what refers to the first generation by no path. Every generation but
the last has a node, so that the number of nodes bounds the rounds. -/
theorem mem_prune_iff {fuel : Nat} {generation alive : Finset ν} (hsub : generation ⊆ alive)
    (hfuel : alive.card < fuel) (x : ν) :
    x ∈ prune refs fuel generation alive ↔ x ∈ alive ∧ ¬ Doomed refs generation alive x := by
  induction fuel generalizing generation alive with
  | zero => exact absurd hfuel (Nat.not_lt_zero _)
  | succ fuel ih =>
      rw [prune]
      split_ifs with hempty
      · subst hempty
        refine ⟨fun hx => ⟨hx, ?_⟩, And.left⟩
        rintro ⟨y, hy, _⟩
        exact absurd hy (Finset.notMem_empty y)
      · have hcard : (alive \ generation).card < fuel := by
          have hpos := Finset.card_pos.2 (Finset.nonempty_iff_ne_empty.2 hempty)
          have := Finset.card_sdiff_of_subset hsub
          have := Finset.card_le_card hsub
          omega
        rw [ih (referrers_subset _ _) hcard, doomed_iff_next hsub, Finset.mem_sdiff,
          not_or, and_assoc]

end Cascade
