import Mathlib.Tactic

set_option autoImplicit false

/-! # Loops over a state that can stop with an error

A call on a state gives the state it leaves, also when it stops with an error, and whether
it did. `forEach` runs a call for each element of a list and stops at the first error.
`Agree` compares two calls: they stop with the same error, or they return the same in related
states.
-/

namespace Outcome

variable {α S ε : Type}

def forEach (f : α → S → S × Except ε Unit) : List α → S → S × Except ε Unit
  | [], s => (s, .ok ())
  | a :: as, s =>
      match f a s with
      | (s, .ok ()) => forEach f as s
      | (s, .error e) => (s, .error e)

/-- A call that returns is the state it leaves. -/
theorem eq_of_returns {out : S × Except ε Unit} (h : out.2 = .ok ()) : out = (out.1, .ok ()) :=
  Prod.ext rfl h

variable {f : α → S → S × Except ε Unit}

@[simp] theorem forEach_nil (s : S) : forEach f [] s = (s, .ok ()) := rfl

theorem forEach_cons_ok {a : α} {s s' : S} (h : f a s = (s', .ok ())) (as : List α) :
    forEach f (a :: as) s = forEach f as s' := by
  simp only [forEach, h]

theorem forEach_cons_error {a : α} {s s' : S} {e : ε} (h : f a s = (s', .error e))
    (as : List α) : forEach f (a :: as) s = (s', .error e) := by
  simp only [forEach, h]

/-- A loop that returns goes on with what comes behind it. -/
theorem forEach_append_ok {as : List α} {s s' : S} (h : forEach f as s = (s', .ok ()))
    (bs : List α) : forEach f (as ++ bs) s = forEach f bs s' := by
  induction as generalizing s with
  | nil => cases h; rfl
  | cons a as ih =>
      rcases hfa : f a s with ⟨s₁, _ | ⟨⟨⟩⟩⟩
      · rw [forEach_cons_error hfa] at h; cases h
      · rw [forEach_cons_ok hfa] at h
        rw [List.cons_append, forEach_cons_ok hfa, ih h]

/-- A property that every iteration keeps holds at the end, error or not. -/
theorem forEach_invariant (I : S → Prop) {as : List α}
    (hf : ∀ a ∈ as, ∀ s, I s → I (f a s).1) {s : S} (hs : I s) :
    I (forEach f as s).1 := by
  induction as generalizing s with
  | nil => exact hs
  | cons a as ih =>
      have ha := hf a List.mem_cons_self s hs
      rcases hfa : f a s with ⟨s', _ | ⟨⟨⟩⟩⟩
      · rw [forEach_cons_error hfa]; rw [hfa] at ha; exact ha
      · rw [forEach_cons_ok hfa]; rw [hfa] at ha
        exact ih (fun b hb => hf b (List.mem_cons_of_mem a hb)) ha

/-- A property that every iteration that succeeds keeps holds after a loop that succeeds. -/
theorem forEach_ok_invariant (I : S → Prop) {as : List α}
    (hf : ∀ a ∈ as, ∀ s s', I s → f a s = (s', .ok ()) → I s') {s s' : S} (hs : I s)
    (h : forEach f as s = (s', .ok ())) : I s' := by
  induction as generalizing s with
  | nil => cases h; exact hs
  | cons a as ih =>
      rcases hfa : f a s with ⟨s₁, _ | ⟨⟨⟩⟩⟩
      · rw [forEach_cons_error hfa] at h; cases h
      · rw [forEach_cons_ok hfa] at h
        exact ih (fun b hb => hf b (List.mem_cons_of_mem a hb))
          (hf a List.mem_cons_self s s₁ hs hfa) h

/-- What an iteration establishes for its element, and the later ones keep, holds for every
element after a loop that succeeds. -/
theorem forEach_ok_forall (I : S → Prop) (Q : α → S → Prop) {as : List α}
    (hf : ∀ a ∈ as, ∀ s s', I s → f a s = (s', .ok ()) → I s' ∧ Q a s' ∧ ∀ b, Q b s → Q b s')
    {s s' : S} (hs : I s) (h : forEach f as s = (s', .ok ())) : ∀ a ∈ as, Q a s' := by
  suffices hall : ∀ b, Q b s ∨ b ∈ as → Q b s' from fun a ha => hall a (Or.inr ha)
  induction as generalizing s with
  | nil =>
      cases h
      intro b hb
      exact hb.resolve_right List.not_mem_nil
  | cons a as ih =>
      rcases hfa : f a s with ⟨s₁, _ | ⟨⟨⟩⟩⟩
      · rw [forEach_cons_error hfa] at h
        cases h
      · rw [forEach_cons_ok hfa] at h
        obtain ⟨hI, ha, hkeep⟩ := hf a List.mem_cons_self s s₁ hs hfa
        intro b hb
        refine ih (fun c hc => hf c (List.mem_cons_of_mem a hc)) hI h b ?_
        rcases hb with hb | hb
        · exact Or.inl (hkeep b hb)
        · rcases List.mem_cons.1 hb with rfl | hb
          · exact Or.inl ha
          · exact Or.inr hb

/-- The loop stops with no error that no iteration stops with. -/
theorem forEach_ne_error {e : ε} {as : List α} (hf : ∀ a ∈ as, ∀ s, (f a s).2 ≠ .error e)
    (s : S) : (forEach f as s).2 ≠ .error e := by
  induction as generalizing s with
  | nil => exact fun h => nomatch h
  | cons a as ih =>
      have ha := hf a List.mem_cons_self s
      rcases hfa : f a s with ⟨s', _ | ⟨⟨⟩⟩⟩
      · rw [forEach_cons_error hfa]; rw [hfa] at ha; exact ha
      · rw [forEach_cons_ok hfa]
        exact ih (fun b hb => hf b (List.mem_cons_of_mem a hb)) s'

/-- A loop returns when each of its iterations does. -/
theorem forEach_returns {as : List α} (hf : ∀ a ∈ as, ∀ s, ∃ s', f a s = (s', .ok ())) (s : S) :
    ∃ s', forEach f as s = (s', .ok ()) := by
  induction as generalizing s with
  | nil => exact ⟨s, rfl⟩
  | cons a as ih =>
      obtain ⟨s₁, hs₁⟩ := hf a List.mem_cons_self s
      rw [forEach_cons_ok hs₁]
      exact ih (fun b hb => hf b (List.mem_cons_of_mem a hb)) s₁

/-- So does one whose iterations return and keep a property that they need. -/
theorem forEach_ok_of_invariant (I : S → Prop) {as : List α}
    (hf : ∀ a ∈ as, ∀ s, I s → ∃ s', f a s = (s', .ok ()) ∧ I s') {s : S} (hs : I s) :
    (forEach f as s).2 = .ok () := by
  induction as generalizing s with
  | nil => rfl
  | cons a as ih =>
      obtain ⟨s₁, hs₁, hI⟩ := hf a List.mem_cons_self s hs
      rw [forEach_cons_ok hs₁]
      exact ih (fun b hb => hf b (List.mem_cons_of_mem a hb)) hI

/-- A property of a state and of the elements that are done, which every iteration that succeeds
keeps, holds of all elements after a loop that succeeds. -/
theorem forEach_ok_along (I : List α → S → Prop) {as : List α}
    (hf : ∀ before a later, as = before ++ a :: later → ∀ s s', I before s →
      f a s = (s', .ok ()) → I (before ++ [a]) s') {s s' : S} (hs : I [] s)
    (h : forEach f as s = (s', .ok ())) : I as s' := by
  suffices hall : ∀ later before s, as = before ++ later → I before s →
      forEach f later s = (s', .ok ()) → I as s' from hall as [] s rfl hs h
  intro later
  induction later with
  | nil =>
      intro before s has hs h
      cases h
      rw [has, List.append_nil]
      exact hs
  | cons a later ih =>
      intro before s has hs h
      rcases hfa : f a s with ⟨s₁, _ | ⟨⟨⟩⟩⟩
      · rw [forEach_cons_error hfa] at h
        cases h
      · rw [forEach_cons_ok hfa] at h
        refine ih (before ++ [a]) s₁ ?_ (hf before a later has s s₁ hs hfa) h
        rw [has, List.append_cons]

/-- Such a loop succeeds when its iterations do. -/
theorem forEach_ok_of_along (I : List α → S → Prop) {as : List α}
    (hf : ∀ before a later, as = before ++ a :: later → ∀ s, I before s →
      ∃ s', f a s = (s', .ok ()) ∧ I (before ++ [a]) s') {s : S} (hs : I [] s) :
    (forEach f as s).2 = .ok () := by
  suffices hall : ∀ later before s, as = before ++ later → I before s →
      (forEach f later s).2 = .ok () from hall as [] s rfl hs
  intro later
  induction later with
  | nil => exact fun _ _ _ _ => rfl
  | cons a later ih =>
      intro before s has hs
      obtain ⟨s₁, hs₁, hI⟩ := hf before a later has s hs
      rw [forEach_cons_ok hs₁]
      exact ih (before ++ [a]) s₁ (by rw [has, List.append_cons]) hI

/-- When every iteration that succeeds follows the step of a pure function under a relation of
states, so does a loop that succeeds. -/
theorem forEach_ok_foldl {T : Type} (R : S → T → Prop) (g : T → α → T) {as : List α}
    (hf : ∀ a ∈ as, ∀ s s' t, R s t → f a s = (s', .ok ()) → R s' (g t a)) {s s' : S} {t : T}
    (h : R s t) (hrun : forEach f as s = (s', .ok ())) : R s' (as.foldl g t) := by
  induction as generalizing s t with
  | nil => cases hrun; exact h
  | cons a as ih =>
      rcases hfa : f a s with ⟨s₁, _ | ⟨⟨⟩⟩⟩
      · rw [forEach_cons_error hfa] at hrun
        cases hrun
      · rw [forEach_cons_ok hfa] at hrun
        exact ih (fun b hb => hf b (List.mem_cons_of_mem a hb))
          (hf a List.mem_cons_self s s₁ t h hfa) hrun

/-! ## Two calls that agree -/

/-- The same error, or the same result in related states. -/
inductive Agree {S T α : Type} (R : S → T → Prop) : S × Except ε α → T × Except ε α → Prop where
  | ok {s : S} {t : T} {a : α} (h : R s t) : Agree R (s, .ok a) (t, .ok a)
  | error {s : S} {t : T} {e : ε} : Agree R (s, .error e) (t, .error e)

section Agree

variable {T β : Type} {R : S → T → Prop} {x : S × Except ε β} {y : T × Except ε β}

theorem Agree.result_eq (h : Agree R x y) : x.2 = y.2 := by
  cases h <;> rfl

theorem Agree.related (h : Agree R x y) {a : β} (hx : x.2 = .ok a) : R x.1 y.1 := by
  cases h with
  | ok h => exact h
  | error => cases hx

/-- The two ways to agree. -/
theorem Agree.cases (h : Agree R x y) :
    (∃ s t e, x = (s, .error e) ∧ y = (t, .error e)) ∨
      ∃ s t a, x = (s, .ok a) ∧ y = (t, .ok a) ∧ R s t := by
  cases h with
  | @ok s t a h => exact Or.inr ⟨s, t, a, rfl, rfl, h⟩
  | @error s t e => exact Or.inl ⟨s, t, e, rfl, rfl⟩

/-- Loops agree when their iterations do. -/
theorem forEach_agree {g : α → T → T × Except ε Unit} {as : List α}
    (hfg : ∀ a ∈ as, ∀ s t, R s t → Agree R (f a s) (g a t)) {s : S} {t : T} (h : R s t) :
    Agree R (forEach f as s) (forEach g as t) := by
  induction as generalizing s t with
  | nil => exact Agree.ok h
  | cons a as ih =>
      rcases (hfg a List.mem_cons_self s t h).cases with
        ⟨s', t', e, hf, hg⟩ | ⟨s', t', ⟨⟩, hf, hg, h'⟩
      · rw [forEach_cons_error hf, forEach_cons_error hg]
        exact Agree.error
      · rw [forEach_cons_ok hf, forEach_cons_ok hg]
        exact ih (fun b hb => hfg b (List.mem_cons_of_mem a hb)) h'

end Agree

end Outcome
