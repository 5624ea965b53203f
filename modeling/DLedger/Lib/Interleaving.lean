import Mathlib.Logic.Function.Basic

set_option autoImplicit false

/-! # Parties that act one at a time

Each party has a state of its own and changes only that. What it may do next can depend on the
states of all the parties, which is how one of them comes to know what another has done. Two rules
lead from a run of all to one party: `Reach.project` forgets the others, and `Reach.invariant` is
for a property of one party that leans on the others, which has to survive what they do.
-/

namespace Interleaving

variable {ι S A : Type} [DecidableEq ι]

/-- A party acts. -/
def act (step : ι → A → S → S) (i : ι) (a : A) (g : ι → S) : ι → S :=
  Function.update g i (step i a (g i))

/-- The states of the runs that start in given states and whose actions are allowed where they
are taken. -/
inductive Reach (start : ι → S → Prop) (step : ι → A → S → S)
    (allowed : (ι → S) → ι → A → Prop) : (ι → S) → Prop where
  | start {g : ι → S} (h : ∀ i, start i (g i)) : Reach start step allowed g
  | act {g : ι → S} {i : ι} {a : A} (h : Reach start step allowed g) (ha : allowed g i a) :
      Reach start step allowed (act step i a g)

variable {start start' : ι → S → Prop} {step : ι → A → S → S}
  {allowed allowed' : (ι → S) → ι → A → Prop} {g : ι → S} {i j : ι} {a : A}

@[simp] theorem act_self : act step i a g i = step i a (g i) := Function.update_self _ _ _

theorem act_of_ne (h : j ≠ i) : act step i a g j = g j := Function.update_of_ne h _ _

/-- An action changes one party, so what holds of each party before it holds of the others after
it. -/
theorem act_cases {motive : ι → S → Prop} (hown : motive i (step i a (g i)))
    (hother : ∀ j, j ≠ i → motive j (g j)) (j : ι) : motive j (act step i a g j) := by
  by_cases hj : j = i
  · rw [hj, act_self]
    exact hown
  · rw [act_of_ne hj]
    exact hother j hj

namespace Reach

theorem mono (hstart : ∀ i s, start i s → start' i s)
    (hallowed : ∀ g i a, allowed g i a → allowed' g i a) (h : Reach start step allowed g) :
    Reach start' step allowed' g := by
  induction h with
  | start h => exact Reach.start fun i => hstart i _ (h i)
  | act _ ha ih => exact ih.act (hallowed _ _ _ ha)

/-- **What each party keeps by itself holds of it in every run.** -/
theorem project {R : ι → S → Prop} (hstart : ∀ i s, start i s → R i s)
    (hact : ∀ g i a, R i (g i) → allowed g i a → R i (step i a (g i)))
    (h : Reach start step allowed g) : ∀ i, R i (g i) := by
  induction h with
  | start h => exact fun i => hstart i _ (h i)
  | act _ ha ih => exact act_cases (hact _ _ _ (ih _) ha) fun j _ => ih j

/-- **A property of each party that leans on all of them** holds in every run, when the party keeps
it where all have it and the others do not spoil it. -/
theorem invariant {I : (ι → S) → ι → Prop} (hstart : ∀ g, (∀ i, start i (g i)) → ∀ i, I g i)
    (hown : ∀ g i a, (∀ j, I g j) → allowed g i a → I (Interleaving.act step i a g) i)
    (hother : ∀ g i a j, j ≠ i → I g j → I (Interleaving.act step i a g) j)
    (h : Reach start step allowed g) : ∀ i, I g i := by
  induction h with
  | start h => exact hstart _ h
  | @act g i a _ ha ih =>
      intro j
      by_cases hj : j = i
      · rw [hj]
        exact hown g i a ih ha
      · exact hother g i a j hj (ih j)

end Reach

end Interleaving
