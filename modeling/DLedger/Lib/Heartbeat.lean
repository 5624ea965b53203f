import Mathlib.Tactic

set_option autoImplicit false

/-! # A timer that each beat arms again

A party beats when its timer is due, and out of turn besides. Each beat arms the timer anew, one
interval later. Whoever runs the timer may be late, but not by more than `late`. A beat of the
timer can fail, and then the timer is armed again only by a beat out of turn.
-/

namespace Heartbeat

structure State where
  clock : Int
  due : Option Int
  /-- The times of the beats, newest first. -/
  beats : List Int

inductive Act where
  | wait (time : Int)
  | beat
  | timer
  | miss
deriving DecidableEq

variable {interval late : Int}

def State.beat (interval : Int) (s : State) : State :=
  { s with due := some (s.clock + interval), beats := s.clock :: s.beats }

def act (interval : Int) : Act → State → State
  | .wait time, s => { s with clock := time }
  | .beat, s => s.beat interval
  | .timer, s => s.beat interval
  | .miss, s => { s with due := none }

/-- Time does not pass a timer that is due by more than `late`. -/
def Enabled (late : Int) (s : State) : Act → Prop
  | .wait time => s.clock ≤ time ∧ ∀ due, s.due = some due → time ≤ due + late
  | .beat => True
  | .timer => ∃ due, s.due = some due ∧ due ≤ s.clock
  | .miss => ∃ due, s.due = some due ∧ due ≤ s.clock

/-- The runs from a state, with their acts, newest first. -/
inductive Run (interval late : Int) (s₀ : State) : List Act → State → Prop where
  | nil : Run interval late s₀ [] s₀
  | act {acts : List Act} {s : State} (h : Run interval late s₀ acts s) (a : Act)
      (ha : Enabled late s a) : Run interval late s₀ (a :: acts) (act interval a s)

variable {s₀ s s' : State} {acts acts' : List Act} {a : Act}

theorem Run.trans (h : Run interval late s₀ acts s) (h' : Run interval late s acts' s') :
    Run interval late s₀ (acts' ++ acts) s' := by
  induction h' with
  | nil => exact h
  | act _ a ha ih => exact ih.act a ha

theorem Run.single (ha : Enabled late s a) : Run interval late s [a] (Heartbeat.act interval a s) :=
  Run.nil.act a ha

variable (interval late) in
/-- Beats out of turn. -/
theorem run_beat (k : Nat) (s : State) :
    Run interval late s (List.replicate k .beat) ((State.beat interval)^[k] s) := by
  induction k with
  | zero => exact Run.nil
  | succ k ih =>
      rw [List.replicate_succ, Function.iterate_succ_apply']
      exact ih.act .beat trivial

/-! ## Counting beats -/

theorem length_beats_act (a : Act) (s : State) :
    (act interval a s).beats.length
      = s.beats.length + [a].count .beat + [a].count .timer := by
  cases a <;> simp [act, State.beat]

/-- A run has the beats of its start, those out of turn and those of the timer. -/
theorem Run.length_beats (h : Run interval late s₀ acts s) :
    s.beats.length = s₀.beats.length + acts.count .beat + acts.count .timer := by
  induction h with
  | nil => simp
  | @act acts s _ a _ ih =>
      have hbeat : (a :: acts).count .beat = acts.count .beat + [a].count .beat := by
        rw [List.count_cons, List.count_singleton]
      have htimer : (a :: acts).count .timer = acts.count .timer + [a].count .timer := by
        rw [List.count_cons, List.count_singleton]
      rw [length_beats_act, ih, hbeat, htimer]
      omega

/-- No beat is forgotten. -/
theorem Run.beats_suffix (h : Run interval late s₀ acts s) : s₀.beats <:+ s.beats := by
  induction h with
  | nil => exact List.suffix_rfl
  | act _ a _ ih =>
      cases a with
      | beat => exact ih.trans (List.suffix_cons _ _)
      | timer => exact ih.trans (List.suffix_cons _ _)
      | wait time => exact ih
      | miss => exact ih

/-! ## No gap -/

/-- The timer is armed one interval after the last beat, and no two beats were further apart than
the interval and the lateness. -/
structure Alive (interval late : Int) (s : State) : Prop where
  due : ∃ last earlier, s.beats = last :: earlier ∧ s.due = some (last + interval)
  chain : (s.clock :: s.beats).IsChain fun later earlier =>
    earlier ≤ later ∧ later ≤ earlier + (interval + late)

/-- After a beat it is alive, if the beats before are not too far apart. -/
theorem alive_beat (hnonneg : 0 ≤ interval + late)
    (h : (s.clock :: s.beats).IsChain fun later earlier =>
      earlier ≤ later ∧ later ≤ earlier + (interval + late)) :
    Alive interval late (s.beat interval) := by
  refine ⟨⟨s.clock, s.beats, rfl, rfl⟩, List.isChain_cons_cons.2 ⟨?_, h⟩⟩
  exact ⟨le_refl _, by simp only [State.beat]; omega⟩

theorem Alive.act (hnonneg : 0 ≤ interval + late) (hs : Alive interval late s)
    (ha : Enabled late s a) (hmiss : a ≠ .miss) :
    Alive interval late (act interval a s) := by
  cases a with
  | beat => exact alive_beat hnonneg hs.chain
  | timer => exact alive_beat hnonneg hs.chain
  | miss => exact absurd rfl hmiss
  | wait time =>
      obtain ⟨last, earlier, hbeats, hdue⟩ := hs.due
      have hclock : s.clock ≤ time := ha.1
      have htime : time ≤ last + interval + late := ha.2 _ hdue
      have hchain := hs.chain
      rw [hbeats, List.isChain_cons_cons] at hchain
      refine ⟨⟨last, earlier, hbeats, hdue⟩, ?_⟩
      show (time :: s.beats).IsChain _
      rw [hbeats, List.isChain_cons_cons]
      exact ⟨⟨by omega, by omega⟩, hchain.2⟩

/-- **No gap** is longer than the interval and the lateness, as long as no beat of the timer
fails. -/
theorem Run.alive (hnonneg : 0 ≤ interval + late) (h : Run interval late s₀ acts s)
    (h₀ : Alive interval late s₀) (hmiss : .miss ∉ acts) : Alive interval late s := by
  induction h with
  | nil => exact h₀
  | act _ a ha ih =>
      rw [List.mem_cons, not_or] at hmiss
      exact (ih hmiss.2).act hnonneg ha (Ne.symm hmiss.1)

/-! ## Not too often -/

/-- After so many beats of the timer so many intervals have passed, and the timer is not armed
for the time before the next one has. -/
structure Spaced (interval start : Int) (own : Nat) (s : State) : Prop where
  clock : start + own * interval ≤ s.clock
  due : ∀ due, s.due = some due → start + (own + 1) * interval ≤ due

theorem Spaced.beat {start : Int} {own : Nat} (h : start + own * interval ≤ s.clock) :
    Spaced interval start own (s.beat interval) := by
  refine ⟨h, fun due hdue => ?_⟩
  cases hdue
  have hmul : ((own : Int) + 1) * interval = own * interval + interval := by ring
  omega

theorem Spaced.act {start : Int} {own : Nat} (hs : Spaced interval start own s)
    (ha : Enabled late s a) :
    Spaced interval start (own + [a].count .timer) (act interval a s) := by
  cases a with
  | wait time => exact ⟨hs.clock.trans ha.1, hs.due⟩
  | beat => exact Spaced.beat hs.clock
  | miss => exact ⟨hs.clock, fun _ hdue => nomatch hdue⟩
  | timer =>
      obtain ⟨due, hdue, hpast⟩ := ha
      have hspaced := (hs.due due hdue).trans hpast
      apply Spaced.beat
      rw [List.count_singleton_self, Nat.cast_add, Nat.cast_one]
      exact hspaced

theorem Run.spaced (h : Run interval late s₀ acts s)
    (h₀ : ∀ due, s₀.due = some due → s₀.clock + interval ≤ due) :
    Spaced interval s₀.clock (acts.count .timer) s := by
  induction h with
  | nil => exact ⟨by simp, fun due hdue => by simpa using h₀ due hdue⟩
  | @act acts s _ a ha ih =>
      have hcount : (a :: acts).count .timer = acts.count .timer + [a].count .timer := by
        rw [List.count_cons, List.count_singleton]
      rw [hcount]
      exact ih.act ha

/-- **The timer does not beat too often**: an interval has passed for each of its beats. -/
theorem Run.timer_le (h : Run interval late s₀ acts s)
    (h₀ : ∀ due, s₀.due = some due → s₀.clock + interval ≤ due) :
    acts.count .timer * interval ≤ s.clock - s₀.clock := by
  have hclock := (h.spaced h₀).clock
  omega

/-! ## Silence -/

/-- **A timer that is not armed stays silent** until a beat out of turn. -/
theorem Run.silent (h : Run interval late s₀ acts s) (h₀ : s₀.due = none)
    (hbeat : .beat ∉ acts) : s.due = none ∧ s.beats = s₀.beats := by
  induction h with
  | nil => exact ⟨h₀, rfl⟩
  | act _ a ha ih =>
      rw [List.mem_cons, not_or] at hbeat
      obtain ⟨hdue, hbeats⟩ := ih hbeat.2
      cases a with
      | wait time => exact ⟨hdue, hbeats⟩
      | beat => exact absurd rfl hbeat.1
      | miss => exact ⟨rfl, hbeats⟩
      | timer =>
          obtain ⟨due, hsome, _⟩ := ha
          rw [hdue] at hsome
          cases hsome

end Heartbeat
