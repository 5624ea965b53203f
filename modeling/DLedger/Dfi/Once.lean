import DLedger.Dfi.Progress

set_option autoImplicit false

/-! # Modules that return once

A module that makes no call behind its result has one call on its way at most. So the host never
has a byte ahead when it goes to `poll`, and `POLLHUP` without `POLLIN` means that nothing is left.
-/

namespace DLedger.Dfi

open Framing

variable {G S : Type} {M : Module G} {callbackList : CallbackList S} {capacity : Nat}
  {s s' : System G S} {argument : Reply} {state : S} {p q : Point G} {calls : List Request}

/-- Behind `return_to_host` the module makes no call. -/
def Module.ReturnsOnce (M : Module G) : Prop :=
  ∀ g argument g' calls p, M.next g = .returnToHost argument g' → Emits M (.at g') calls p →
    calls = []

theorem Emits.length_le (hM : M.ReturnsOnce) (h : Emits M p calls q) : calls.length ≤ 1 := by
  induction h with
  | refl | exit => exact Nat.zero_le _
  | compute _ _ ih => exact ih
  | returnToHost hnext h _ =>
      rw [hM _ _ _ _ _ hnext h]
      exact le_refl _
  | callHost => exact le_refl _

/-- The host reads the only call that is on its way. -/
theorem Reach.only_call (h : Reach M callbackList capacity argument state s)
    (hM : M.ReturnsOnce) {round : Nat} {hup : Bool} {got : List UInt8}
    (hhost : s.host = .receiving round hup got) :
    ∃ call, requestCode.decode got = none ∧
      got ++ (s.ahead ++ (s.toHost ++ s.process.pending)) = requestCode.encode call ++ [] := by
  obtain ⟨d, _, hfollows⟩ := h.follows
  rcases hfollows.place with ⟨habort, _⟩ | ⟨_, _, _, hin⟩ | ⟨calls, q, hout⟩
  · cases hhost.symm.trans habort
  · have hidle := hin.host
    rw [hhost] at hidle
    rcases hidle with hidle | hpending
    · cases hidle
    · exact absurd rfl hpending
  · obtain ⟨call, calls', rfl, hdecode, hstream⟩ := hout.first_call hhost
    have hle := hout.emits.length_le hM
    have hnil : calls' = [] := List.length_eq_zero_iff.1 (by
      rw [List.length_cons] at hle
      omega)
    subst hnil
    exact ⟨call, hdecode, hstream⟩

/-- Nothing is left behind the call. -/
theorem Reach.none_behind (h : Reach M callbackList capacity argument state s)
    (hM : M.ReturnsOnce) {round : Nat} {hup : Bool} {got rest : List UInt8} {b : UInt8}
    {call : Request} (hhost : s.host = .receiving round hup got) (hahead : s.ahead = b :: rest)
    (hcall : requestCode.decode (got ++ [b]) = some call) : rest = [] ∧ s.toHost = [] := by
  obtain ⟨first, hdecode, hstream⟩ := h.only_call hM hhost
  rw [hahead] at hstream
  rcases PrefixCode.decode_next hstream hdecode with hnone | ⟨_, hrest⟩
  · rw [hcall] at hnone
    cases hnone
  · obtain ⟨hnil, hnone⟩ := List.append_eq_nil_iff.1 hrest
    exact ⟨hnil, (List.append_eq_nil_iff.1 hnone).1⟩

/-- In the round of this state `poll` has seen `POLLHUP`. -/
def HostState.Hung : HostState → Prop
  | receiving _ hup _ => hup = true
  | replying _ hup _ => hup = true
  | stopped why => why = .hangup
  | _ => False

/-- What a hangup tells of the module and of its pipe. -/
structure Drained (s : System G S) : Prop where
  ahead : (∀ round hup got, s.host ≠ .receiving round hup got) → s.ahead = []
  closed : s.host.Hung → s.process.isClosed = true
  toHost : s.host = .stopped .hangup → s.toHost = []

namespace HostState

theorem hung_of_hangup {host : HostState} (h : host = .stopped .hangup) : host.Hung := by
  rw [h]
  rfl

theorem not_hung_send (rest : List UInt8) : ¬ (send rest).Hung := by
  unfold send
  split_ifs <;> exact id

theorem hung_behind {round : Nat} {hup : Bool} (h : (behind round hup).Hung) : hup = true := by
  cases hup
  · exact h.elim
  · rfl

theorem hung_reply {round : Nat} {hup : Bool} {rest : List UInt8}
    (h : (reply round hup rest).Hung) : hup = true := by
  unfold reply at h
  split_ifs at h
  · exact hung_behind h
  · exact h

end HostState

/-- A module that has not ended does something. -/
theorem Drained.of_module (hs : Drained s) {process : ModuleState G} {toModule toHost : List UInt8}
    (hopen : s.process.isClosed = false) :
    Drained { s with process := process, toModule := toModule, toHost := toHost } := by
  have hhung : ¬ s.host.Hung := by
    intro hhung
    have hclosed := hs.closed hhung
    rw [hopen] at hclosed
    cases hclosed
  exact ⟨hs.ahead, fun h => absurd h hhung, fun h => absurd (HostState.hung_of_hangup h) hhung⟩

/-- The host gets to a place where it has seen no hangup. -/
theorem Drained.of_not_hung {host : HostState} {toModule : List UInt8} (hahead : s.ahead = [])
    (hhung : ¬ host.Hung) : Drained { s with host := host, toModule := toModule } :=
  ⟨fun _ => hahead, fun h => absurd h hhung, fun h => absurd (HostState.hung_of_hangup h) hhung⟩

theorem Drained.handle (hs : Drained s) {round : Nat} {hup : Bool} {got rest : List UInt8}
    {call : Request} (hhost : s.host = .receiving round hup got) (hrest : rest = [])
    (hpipe : s.toHost = []) :
    Drained (System.handle callbackList round hup call { s with ahead := rest }) := by
  have hclosed : hup = true → s.process.isClosed = true := by
    intro hhup
    refine hs.closed ?_
    rw [hhost]
    exact hhup
  unfold System.handle
  split
  · exact ⟨fun _ => hrest, fun h => h.elim, fun _ => hpipe⟩
  · exact ⟨fun _ => hrest, fun h => hclosed (HostState.hung_behind h), fun _ => hpipe⟩
  · exact ⟨fun _ => hrest, fun h => hclosed h, fun _ => hpipe⟩

theorem Reach.drained_step (h : Reach M callbackList capacity argument state s)
    (hM : M.ReturnsOnce) (hs : Drained s) (hstep : Step M callbackList capacity s s') :
    Drained s' := by
  -- a host that does not read has no byte ahead
  have hnone : ∀ host : HostState, s.host = host →
      (∀ round hup got, host ≠ .receiving round hup got) → s.ahead = [] := by
    intro host hhost hne
    refine hs.ahead ?_
    rw [hhost]
    exact hne
  cases hstep with
  | read hprocess | compute hprocess | callHost hprocess | returnToHost hprocess | write hprocess
  | close hprocess =>
      exact hs.of_module (by rw [hprocess]; rfl)
  | exit hprocess => exact ⟨hs.ahead, fun _ => rfl, hs.toHost⟩
  | @send rest b hhost =>
      exact .of_not_hung (hnone _ hhost nofun) (HostState.not_hung_send rest)
  | timeout hhost | exhausted hhost | waited hhost | next hhost =>
      exact .of_not_hung (hnone _ hhost nofun) nofun
  | ready => exact ⟨fun hne => absurd rfl (hne _ _ _), id, nofun⟩
  | hangup hhost _ hpipe hclosed =>
      exact ⟨fun _ => hnone _ hhost nofun, fun _ => hclosed, fun _ => hpipe⟩
  | refill hhost =>
      refine ⟨fun hne => absurd hhost (hne _ _ _), hs.closed, fun hstop => ?_⟩
      cases hhost.symm.trans hstop
  | wait hhost =>
      refine ⟨fun hne => absurd rfl (hne _ _ _), fun hhung => hs.closed ?_, nofun⟩
      rw [hhost]
      exact hhung
  | executeCallback hhost hahead hcall =>
      obtain ⟨hrest, hpipe⟩ := h.none_behind hM hhost hahead hcall
      exact hs.handle hhost hrest hpipe
  | noCall _ hahead hpipe hclosed => exact ⟨fun _ => hahead, fun _ => hclosed, fun _ => hpipe⟩
  | partOfCall _ _ hahead => exact .of_not_hung hahead nofun
  | @reply round hup rest b hhost hopen =>
      refine .of_not_hung (hnone _ hhost nofun) fun hhung => ?_
      have hclosed : s.process.isClosed = true := by
        refine hs.closed ?_
        rw [hhost]
        exact HostState.hung_reply hhung
      rw [hopen] at hclosed
      cases hclosed
  | brokenPipe hpending =>
      refine .of_not_hung (hs.ahead fun round hup got hhost => hpending ?_) nofun
      rw [hhost]
      rfl

theorem Reach.drained (h : Reach M callbackList capacity argument state s) (hM : M.ReturnsOnce) :
    Drained s := by
  induction h with
  | start => exact ⟨fun _ => rfl, fun hhung => hhung.elim, nofun⟩
  | step h hstep ih => exact h.drained_step hM ih hstep

end DLedger.Dfi
