import DLedger.Dfi.Runner

set_option autoImplicit false

/-! # What a module computes

The meaning of a module without processes and pipes: its calls are function calls. This is what the
pipes are for.
-/

namespace DLedger.Dfi

open Framing

variable {G S : Type}

/-- Where the computation of a module is. One that has called a function which does not reply waits
for good. -/
inductive Point (G : Type) where
  | at (g : G)
  | waiting (k : List UInt8 → G)
  | ended

/-- A computation with the state of the host, the result so far and the calls so far, newest
first. -/
structure Direct (G S : Type) where
  point : Point G
  state : S
  returnBuffer : List UInt8
  handled : List Request

/-- The calls are made one after another, and each is answered before the module goes on. -/
inductive DirectStep (M : Module G) (callbackList : CallbackList S) :
    Direct G S → Direct G S → Prop where
  | compute {g g' : G} {state : S} {returnBuffer : List UInt8} {handled : List Request}
      (hnext : M.next g = .compute g') :
      DirectStep M callbackList ⟨.at g, state, returnBuffer, handled⟩
        ⟨.at g', state, returnBuffer, handled⟩
  | exit {g : G} {state : S} {returnBuffer : List UInt8} {handled : List Request}
      (hnext : M.next g = .exit) :
      DirectStep M callbackList ⟨.at g, state, returnBuffer, handled⟩
        ⟨.ended, state, returnBuffer, handled⟩
  | returnToHost {g g' : G} {argument : Reply} {state state' : S}
      {returnBuffer returnBuffer' : List UInt8} {handled : List Request}
      (hnext : M.next g = .returnToHost argument g')
      (hcall : executeCallback callbackList (doneRequest argument) (state, returnBuffer)
        = some ((state', returnBuffer'), none)) :
      DirectStep M callbackList ⟨.at g, state, returnBuffer, handled⟩
        ⟨.at g', state', returnBuffer', doneRequest argument :: handled⟩
  | callHost {g : G} {call : Request} {k : List UInt8 → G} {state state' : S}
      {returnBuffer returnBuffer' : List UInt8} {handled : List Request} {reply : Reply}
      (hnext : M.next g = .callHost call k)
      (hcall : executeCallback callbackList call (state, returnBuffer)
        = some ((state', returnBuffer'), some reply)) :
      DirectStep M callbackList ⟨.at g, state, returnBuffer, handled⟩
        ⟨.at (k reply.payload), state', returnBuffer', call :: handled⟩
  | noReply {g : G} {call : Request} {k : List UInt8 → G} {state state' : S}
      {returnBuffer returnBuffer' : List UInt8} {handled : List Request}
      (hnext : M.next g = .callHost call k)
      (hcall : executeCallback callbackList call (state, returnBuffer)
        = some ((state', returnBuffer'), none)) :
      DirectStep M callbackList ⟨.at g, state, returnBuffer, handled⟩
        ⟨.waiting k, state', returnBuffer', call :: handled⟩

/-- The computation of a module on an argument. -/
def Direct.start (M : Module G) (argument : Reply) (state : S) : Direct G S :=
  ⟨.at (M.start argument.payload), state, [], []⟩

abbrev Computes (M : Module G) (callbackList : CallbackList S) : Direct G S → Direct G S → Prop :=
  Relation.ReflTransGen (DirectStep M callbackList)

/-! ## Running ahead -/

/-- From one point the module gets to another one and writes these calls on its way; the last of
them may be one that it waits for. -/
inductive Emits (M : Module G) : Point G → List Request → Point G → Prop where
  | refl (p : Point G) : Emits M p [] p
  | compute {g g' : G} {calls : List Request} {p : Point G} (hnext : M.next g = .compute g')
      (h : Emits M (.at g') calls p) : Emits M (.at g) calls p
  | exit {g : G} (hnext : M.next g = .exit) : Emits M (.at g) [] .ended
  | returnToHost {g g' : G} {argument : Reply} {calls : List Request} {p : Point G}
      (hnext : M.next g = .returnToHost argument g') (h : Emits M (.at g') calls p) :
      Emits M (.at g) (doneRequest argument :: calls) p
  | callHost {g : G} {call : Request} {k : List UInt8 → G} (hnext : M.next g = .callHost call k) :
      Emits M (.at g) [call] (.waiting k)

variable {M : Module G} {callbackList : CallbackList S} {p q r : Point G}
  {calls calls' : List Request} {call : Request}

theorem Emits.trans (h : Emits M p calls q) (h' : Emits M q calls' r)
    (hq : ∀ k, q ≠ .waiting k) : Emits M p (calls ++ calls') r := by
  induction h with
  | refl p => exact h'
  | compute hnext _ ih => exact Emits.compute hnext (ih h' hq)
  | exit hnext =>
      cases h' with
      | refl => exact Emits.exit hnext
  | returnToHost hnext _ ih => exact Emits.returnToHost hnext (ih h' hq)
  | callHost hnext => exact absurd rfl (hq _)

/-- Where a computation is when the next of the calls that it has written is handled. -/
theorem Emits.uncons {point : Point G} (h : Emits M point (call :: calls) q)
    (callbackList : CallbackList S) (state : S) (returnBuffer : List UInt8)
    (handled : List Request) :
    ∃ g, Computes M callbackList ⟨point, state, returnBuffer, handled⟩
        ⟨.at g, state, returnBuffer, handled⟩ ∧
      ((∃ argument g', M.next g = .returnToHost argument g' ∧ call = doneRequest argument ∧
          Emits M (.at g') calls q) ∨
        ∃ k, M.next g = .callHost call k ∧ calls = [] ∧ q = .waiting k) := by
  generalize hall : call :: calls = all at h
  induction h with
  | refl p => cases hall
  | @compute g g' calls' p hnext h ih =>
      obtain ⟨g'', hcomputes, hnext'⟩ := ih hall
      exact ⟨g'', Relation.ReflTransGen.head (DirectStep.compute hnext) hcomputes, hnext'⟩
  | exit hnext => cases hall
  | @returnToHost g g' argument calls' p hnext h ih =>
      cases hall
      exact ⟨g, Relation.ReflTransGen.refl, Or.inl ⟨argument, g', hnext, rfl, h⟩⟩
  | @callHost g call' k hnext =>
      cases hall
      exact ⟨g, Relation.ReflTransGen.refl, Or.inr ⟨k, hnext, rfl, rfl⟩⟩

/-- A module that writes nothing computes what comes next. -/
theorem Emits.computes_of_nil {state : S} {returnBuffer : List UInt8} {handled : List Request}
    (h : Emits M p [] q) : Computes M callbackList ⟨p, state, returnBuffer, handled⟩
      ⟨q, state, returnBuffer, handled⟩ := by
  generalize hall : ([] : List Request) = all at h
  induction h with
  | refl p => exact Relation.ReflTransGen.refl
  | compute hnext _ ih => exact Relation.ReflTransGen.head (DirectStep.compute hnext) (ih hall)
  | exit hnext => exact Relation.ReflTransGen.single (DirectStep.exit hnext)
  | returnToHost => cases hall
  | callHost => cases hall

/-- A result has no reply. -/
theorem executeCallback_doneRequest (argument : Reply) (host : S × List UInt8) :
    executeCallback callbackList (doneRequest argument) host
      = if argument.payload = [] then none else some ((host.1, argument.payload), none) := by
  have hname : (doneRequest argument).header = doneName := rfl
  have hpayload : (doneRequest argument).payload = argument.payload := rfl
  rw [executeCallback, hname, hpayload, if_pos rfl]

/-- The argument of the latest result among these calls. -/
def lastResult : List Request → List UInt8
  | [] => []
  | call :: calls => if call.header = doneName then call.payload else lastResult calls

theorem executeCallback_returnBuffer {call : Request} {state state' : S}
    {returnBuffer returnBuffer' : List UInt8} {reply : Option Reply}
    (h : executeCallback callbackList call (state, returnBuffer)
      = some ((state', returnBuffer'), reply)) :
    returnBuffer' = if call.header = doneName then call.payload else returnBuffer := by
  unfold executeCallback at h
  split_ifs at h with hpayload hname
  · cases h
    rw [if_pos hname]
  · rw [if_neg hname]
    split at h
    · cases h
      rfl
    · simp only at h
      split_ifs at h
      cases h
      rfl

/-! ## One computation -/

variable {d d' : Direct G S}

/-- A computation has one next step at most. -/
theorem DirectStep.unique {d₁ d₂ : Direct G S} (h : DirectStep M callbackList d d₁)
    (h' : DirectStep M callbackList d d₂) : d₁ = d₂ := by
  cases h with
  | compute hnext | exit hnext =>
      cases h' with
      | compute hnext' | exit hnext' | returnToHost hnext' | callHost hnext' | noReply hnext' =>
          cases hnext.symm.trans hnext' <;> rfl
  | returnToHost hnext hcall | callHost hnext hcall | noReply hnext hcall =>
      cases h' with
      | compute hnext' | exit hnext' => cases hnext.symm.trans hnext'
      | returnToHost hnext' hcall' | callHost hnext' hcall' | noReply hnext' hcall' =>
          cases hnext.symm.trans hnext' <;> cases hcall.symm.trans hcall' <;> rfl

theorem Computes.handled_le (h : Computes M callbackList d d') :
    d.handled.length ≤ d'.handled.length := by
  induction h with
  | refl => exact le_refl _
  | tail _ hstep ih =>
      refine ih.trans ?_
      cases hstep with
      | compute | exit => exact le_refl _
      | returnToHost | callHost | noReply => exact Nat.le_succ _

theorem Computes.returnBuffer (h : Computes M callbackList d d')
    (hd : d.returnBuffer = lastResult d.handled) : d'.returnBuffer = lastResult d'.handled := by
  induction h with
  | refl => exact hd
  | tail _ hstep ih =>
      cases hstep with
      | compute | exit => exact ih
      | returnToHost _ hcall | callHost _ hcall | noReply _ hcall =>
          simp only at ih ⊢
          rw [executeCallback_returnBuffer hcall, ih]
          rfl

/-- Two computations from one point: one goes on where the other is. -/
theorem Computes.total {d₁ d₂ : Direct G S} (h : Computes M callbackList d d₁)
    (h' : Computes M callbackList d d₂) :
    Computes M callbackList d₁ d₂ ∨ Computes M callbackList d₂ d₁ :=
  Relation.ReflTransGen.total_of_right_unique (fun _ _ _ h h' => DirectStep.unique h h') h h'

/-- A computation that has ended does not go on. -/
theorem Computes.to_ended {d₁ : Direct G S} (h : Computes M callbackList d d₁)
    (h' : Computes M callbackList d d') (hended : d'.point = .ended) :
    Computes M callbackList d₁ d' := by
  rcases h.total h' with hahead | hback
  · exact hahead
  rcases Relation.ReflTransGen.cases_head hback with rfl | ⟨_, hstep, _⟩
  · exact Relation.ReflTransGen.refl
  · obtain ⟨point, state, returnBuffer, handled⟩ := d'
    simp only at hended
    subst hended
    cases hstep

/-- A computation that ends behind a call has handled it. -/
theorem Emits.handled_lt (h : Emits M d.point calls q) (hcalls : calls ≠ [])
    (hcomputes : Computes M callbackList d d') (hended : d'.point = .ended) :
    d.handled.length < d'.handled.length := by
  obtain ⟨call, calls, rfl⟩ := List.exists_cons_of_ne_nil hcalls
  obtain ⟨point, state, returnBuffer, handled⟩ := d
  obtain ⟨g, hpast, hnext⟩ := h.uncons callbackList state returnBuffer handled
  have hahead : Computes M callbackList ⟨.at g, state, returnBuffer, handled⟩ d' :=
    hpast.to_ended hcomputes hended
  rcases Relation.ReflTransGen.cases_head hahead with heq | ⟨d₁, hstep, hrest⟩
  · rw [← heq] at hended
    cases hended
  have hle : d₁.handled.length ≤ d'.handled.length := Computes.handled_le hrest
  cases hstep with
  | compute hnext' | exit hnext' =>
      rcases hnext with ⟨_, _, hnext, _⟩ | ⟨_, hnext, _⟩
      · cases hnext.symm.trans hnext'
      · cases hnext.symm.trans hnext'
  | returnToHost | callHost | noReply => exact hle

end DLedger.Dfi
