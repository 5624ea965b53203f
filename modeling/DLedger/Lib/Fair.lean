import Mathlib.Logic.Relation
import Mathlib.Order.WellFounded
import Mathlib.Tactic.Use

set_option autoImplicit false

/-! # Work that comes to an end

One party of a system has work to do, and another party serves it. Whatever the other party does
besides, the work is done in the end if three things hold: every move of the worker uses up some of
it, a worker that can move can still move after a step of others, and one that cannot move waits
for a step that the other party can take.
-/

namespace Fair

variable {σ α : Type}

/-- Some step is a move of this party. -/
def Enabled (step moves : σ → σ → Prop) (s : σ) : Prop := ∃ s', step s s' ∧ moves s s'

/-- **Weak fairness.** A party that can move from some time on does so at some time. -/
def Weak (step moves : σ → σ → Prop) (run : ℕ → σ) : Prop :=
  ∀ n, (∀ m, n ≤ m → Enabled step moves (run m)) → ∃ m, n ≤ m ∧ moves (run m) (run (m + 1))

/-- A run goes on for ever, and now and then nothing happens. -/
def Run (step : σ → σ → Prop) (run : ℕ → σ) : Prop :=
  ∀ n, run (n + 1) = run n ∨ step (run n) (run (n + 1))

variable {step moves : σ → σ → Prop} {run : ℕ → σ}

theorem Run.invariant {I : σ → Prop} (hrun : Run step run) (hstart : I (run 0))
    (hstep : ∀ {s s'}, I s → step s s' → I s') (n : ℕ) : I (run n) := by
  induction n with
  | zero => exact hstart
  | succ n ih =>
      rcases hrun n with hsame | hnext
      · rw [hsame]
        exact ih
      · exact hstep ih hnext

/-- A path goes on as a run in which nothing happens any more. -/
theorem exists_run {s t : σ} (h : Relation.ReflTransGen step s t) :
    ∃ run, Run step run ∧ run 0 = s ∧ ∃ n, ∀ m, n ≤ m → run m = t := by
  induction h using Relation.ReflTransGen.head_induction_on with
  | refl => exact ⟨fun _ => t, fun _ => Or.inl rfl, rfl, 0, fun _ _ => rfl⟩
  | @head s s' hstep _ ih =>
      obtain ⟨run, hrun, hstart, n, hend⟩ := ih
      refine ⟨fun m => Nat.casesOn m s run, fun m => ?_, rfl, n + 1, fun m hm => ?_⟩
      · cases m with
        | zero =>
            right
            rw [← hstart] at hstep
            exact hstep
        | succ m => exact hrun m
      · cases m with
        | zero => exact absurd hm (Nat.not_succ_le_zero n)
        | succ m => exact hend m (Nat.le_of_succ_le_succ hm)

/-- Such a run is fair to a party that cannot move at its end. -/
theorem Weak.of_stuck {t : σ} (hstuck : ¬ Enabled step moves t) {n : ℕ}
    (hend : ∀ m, n ≤ m → run m = t) : Weak step moves run := by
  intro m hable
  have hlate := hable (max m n) (le_max_left m n)
  rw [hend _ (le_max_right m n)] at hlate
  exact absurd hlate hstuck

/-- **A party whose moves use something up** has a last move. -/
theorem exists_last [Preorder α] [WellFoundedLT α] {μ : σ → α}
    (hmoves : ∀ n, μ (run (n + 1)) < μ (run n) ∨
      ¬ moves (run n) (run (n + 1)) ∧ μ (run (n + 1)) = μ (run n)) :
    ∃ n, ∀ m, n ≤ m → ¬ moves (run m) (run (m + 1)) := by
  obtain ⟨least, ⟨n, hn⟩, hleast⟩ :=
    (wellFounded_lt (α := α)).has_min (Set.range fun n => μ (run n)) ⟨_, 0, rfl⟩
  have hnot : ∀ m, ¬ μ (run m) < least := fun m => hleast _ ⟨m, rfl⟩
  refine ⟨n, fun m hm => ?_⟩
  have hconst : μ (run m) = least := by
    induction m, hm using Nat.le_induction with
    | base => exact hn
    | succ m _ ih =>
        rcases hmoves m with hlt | ⟨_, heq⟩
        · rw [ih] at hlt
          exact absurd hlt (hnot (m + 1))
        · rw [heq, ih]
  rcases hmoves m with hlt | ⟨hstays, _⟩
  · rw [hconst] at hlt
    exact absurd hlt (hnot (m + 1))
  · exact hstays

/-- One party works and another one serves it. Where the worker is not ready, every step makes it
ready, so that it waits for the other party only. -/
structure Serves [Preorder α] (step worker server : σ → σ → Prop) (I done ready : σ → Prop)
    (μ : σ → α) : Prop where
  invariant : ∀ {s s'}, I s → step s s' → I s'
  work : ∀ {s s'}, I s → step s s' → μ s' < μ s ∨ ¬ worker s s' ∧ μ s' = μ s
  able : ∀ {s}, I s → ready s → Enabled step worker s
  stays : ∀ {s s'}, I s → ready s → step s s' → ¬ worker s s' → ready s'
  helps : ∀ {s}, I s → ¬ done s → ¬ ready s → Enabled step server s
  serves : ∀ {s s'}, I s → ¬ done s → ¬ ready s → step s s' → ready s'
  worker_ne : ∀ {s}, ¬ worker s s
  server_ne : ∀ {s}, ¬ server s s

variable {worker server : σ → σ → Prop} {I done ready : σ → Prop}

/-- A worker that is ready moves. -/
theorem Serves.exists_move [Preorder α] {μ : σ → α}
    (h : Serves step worker server I done ready μ) (hrun : Run step run) (hI : ∀ n, I (run n))
    (hworker : Weak step worker run) {n : ℕ} (hready : ready (run n)) :
    ∃ m, n ≤ m ∧ worker (run m) (run (m + 1)) := by
  by_contra hnone
  have hno : ∀ m, n ≤ m → ¬ worker (run m) (run (m + 1)) := fun m hm hmove => hnone ⟨m, hm, hmove⟩
  have hstays : ∀ m, n ≤ m → ready (run m) := by
    intro m hm
    induction m, hm using Nat.le_induction with
    | base => exact hready
    | succ m hm ih =>
        rcases hrun m with hsame | hstep
        · rw [hsame]
          exact ih
        · exact h.stays (hI m) ih hstep (hno m hm)
  exact hnone (hworker n fun m hm => h.able (hI m) (hstays m hm))

/-- **The work is done** in every run in which neither party is kept from moving. -/
theorem Serves.ends [Preorder α] [WellFoundedLT α] {μ : σ → α}
    (h : Serves step worker server I done ready μ) (hrun : Run step run) (hstart : I (run 0))
    (hworker : Weak step worker run) (hserver : Weak step server run) : ∃ n, done (run n) := by
  have hI := hrun.invariant hstart h.invariant
  obtain ⟨last, hlast⟩ : ∃ n, ∀ m, n ≤ m → ¬ worker (run m) (run (m + 1)) := by
    refine exists_last (μ := μ) fun n => ?_
    rcases hrun n with hsame | hstep
    · rw [hsame]
      exact Or.inr ⟨h.worker_ne, rfl⟩
    · exact h.work (hI n) hstep
  by_contra hnever
  have hdone : ∀ n, ¬ done (run n) := fun n hn => hnever ⟨n, hn⟩
  have hblocked : ∀ n, last ≤ n → ¬ ready (run n) := by
    intro n hn hready
    obtain ⟨m, hm, hmove⟩ := h.exists_move hrun hI hworker hready
    exact hlast m (hn.trans hm) hmove
  -- any step would make the worker ready, so nothing happens any more
  obtain ⟨m, hm, hmove⟩ := hserver last fun n hn => h.helps (hI n) (hdone n) (hblocked n hn)
  rcases hrun m with hsame | hstep
  · rw [hsame] at hmove
    exact h.server_ne hmove
  · exact hblocked (m + 1) (Nat.le_succ_of_le hm)
      (h.serves (hI m) (hdone m) (hblocked m hm) hstep)

end Fair
