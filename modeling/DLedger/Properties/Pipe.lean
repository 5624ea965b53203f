import DLedger.Dfi.Sample

set_option autoImplicit false

/-! # What comes through the pipes

However the host and the module take turns, the host does what the module computes, up to some
point. It always gets on, but it gives the module only so many rounds, and what the module writes
can be left in the pipe.
-/

namespace DLedger.Dfi

open Framing

variable {G S : Type} {M : Module G} {callbackList : CallbackList S} {capacity : Nat}
  {s s' : System G S} {d d' : Direct G S} {p q : Point G} {calls : List Request} {argument : Reply}
  {state state' : S}

/-! ## The host does what the module computes -/

/-- **The pipes refine the computation.** In every state of every run the state of the host, the
return buffer and the calls that it has handled are those of the computation at some point: each
call has been executed once, in order and on the argument that the module has given. The host is
aborted only where the module is at a call for which an assertion fails: an empty argument, an empty
result, or a function with an empty reply. -/
theorem pipe_refines (h : Reach M callbackList capacity argument state s) :
    ∃ d, Computes M callbackList (.start M argument state) d ∧ s.state = d.state ∧
      s.returnBuffer = d.returnBuffer ∧ s.handled = d.handled ∧
      (s.host = .aborted → Fails M callbackList d) := by
  obtain ⟨d, hcomputes, hfollows⟩ := h.follows
  refine ⟨d, hcomputes, hfollows.state, hfollows.returnBuffer, hfollows.handled, fun habort => ?_⟩
  rcases hfollows.place with ⟨_, hfails⟩ | ⟨got, k, reply, hin⟩ | ⟨calls, q, hout⟩
  · exact hfails
  · have hhost := hin.host
    rw [habort] at hhost
    rcases hhost with hidle | hpending
    · cases hidle
    · exact absurd rfl hpending
  · have hhost := hout.host
    rw [habort] at hhost
    rcases hhost with hidle | ⟨_, _, _, hhost, _⟩
    · cases hidle
    · cases hhost

theorem pipe_refines_cTest1 :
    ∃ d, Computes Sample.cTest1 Sample.callbackList (.start Sample.cTest1 Sample.argument ()) d ∧
      () = d.state ∧ Sample.message.payload = d.returnBuffer ∧
      [doneRequest Sample.message, Sample.getb] = d.handled ∧
      (HostState.stopped .hangup = .aborted → Fails Sample.cTest1 Sample.callbackList d) :=
  pipe_refines Sample.reach_cTest1Stopped

/-- **Every computation is carried out by some run**, as far as the rounds go, and a pipe of one
byte is enough for it. An empty argument aborts the host at once. -/
theorem pipe_realizes (hcapacity : 0 < capacity) (hargument : argument.payload ≠ [])
    (h : Computes M callbackList (.start M argument state) d)
    (hrounds : d.handled.length ≤ maxRounds) :
    ∃ s, Reach M callbackList capacity argument state s ∧ s.process = d.point.process ∧
      s.state = d.state ∧ s.returnBuffer = d.returnBuffer ∧ s.handled = d.handled :=
  ⟨d.settled, (Reach.start hargument).trans (h.realized hcapacity hrounds), rfl, rfl, rfl, rfl⟩

theorem pipe_realizes_cTest1 :
    ∃ s, Reach Sample.cTest1 Sample.callbackList 1 Sample.argument () s ∧ s.process = .closed ∧
      s.state = () ∧ s.returnBuffer = Sample.message.payload ∧
      s.handled = [doneRequest Sample.message, Sample.getb] :=
  pipe_realizes Nat.one_pos (by decide) Sample.computes_cTest1End (by decide)

/-! ## What is left in the pipe -/

/-- A host that has stopped and a module that has ended: what the module has written is handled, or
it is in the pipe. -/
theorem Reach.left_of_closed (h : Reach M callbackList capacity argument state s) {why : Stop}
    (hhost : s.host = .stopped why) (hclosed : s.process.isClosed = true) :
    ∃ d calls, Computes M callbackList (.start M argument state) d ∧ s.state = d.state ∧
      s.returnBuffer = d.returnBuffer ∧ s.handled = d.handled ∧ Emits M d.point calls .ended ∧
      s.ahead ++ s.toHost = requestCode.encodeAll calls := by
  obtain ⟨d, hcomputes, hfollows⟩ := h.follows
  rcases hfollows.place with ⟨habort, _⟩ | ⟨got, k, reply, hin⟩ | ⟨calls, q, hout⟩
  · rw [hhost] at habort
    cases habort
  · rw [hin.process] at hclosed
    cases hclosed
  have hat := hout.process
  have hpending : s.process.pending = [] := by
    cases hprocess : s.process <;> first
      | rfl
      | (rw [hprocess] at hclosed; cases hclosed)
  have hended : q = .ended := by
    cases hprocess : s.process <;> rw [hprocess] at hat hclosed <;> first
      | exact hat
      | cases hclosed
  have hstream := hout.stream
  rw [hhost, hpending, List.append_nil] at hstream
  exact ⟨d, calls, hcomputes, hfollows.state, hfollows.returnBuffer, hfollows.handled,
    hended ▸ hout.emits, hstream⟩

/-- If nothing is left, the computation has ended where the host is. -/
theorem Reach.ended_of_empty (h : Reach M callbackList capacity argument state s) {why : Stop}
    (hhost : s.host = .stopped why) (hclosed : s.process.isClosed = true) (hahead : s.ahead = [])
    (hpipe : s.toHost = []) :
    ∃ d, Computes M callbackList (.start M argument state) d ∧ d.point = .ended ∧
      s.state = d.state ∧ s.returnBuffer = d.returnBuffer ∧ s.handled = d.handled := by
  obtain ⟨d, calls, hcomputes, hstate, hbuffer, hhandled, hemits, hstream⟩ :=
    h.left_of_closed hhost hclosed
  rw [hahead, hpipe] at hstream
  cases calls with
  | cons call calls =>
      rw [PrefixCode.encodeAll_cons, eq_comm, List.append_nil, List.append_eq_nil_iff] at hstream
      exact absurd hstream.1 call.encode_ne_nil
  | nil =>
      obtain ⟨point, state', returnBuffer, handled⟩ := d
      exact ⟨_, hcomputes.trans hemits.computes_of_nil, rfl, hstate, hbuffer, hhandled⟩

/-- **The result is complete exactly when nothing is left in the pipe.** In every run in which the
module has ended and the host has stopped, the host has what the module computes to its end if and
only if it has read all that the module has written. -/
theorem pipe_complete (h : Reach M callbackList capacity argument state s) {why : Stop}
    (hhost : s.host = .stopped why) (hclosed : s.process.isClosed = true) :
    (∃ d, Computes M callbackList (.start M argument state) d ∧ d.point = .ended ∧
        s.state = d.state ∧ s.returnBuffer = d.returnBuffer ∧ s.handled = d.handled) ↔
      s.ahead = [] ∧ s.toHost = [] := by
  constructor
  · rintro ⟨d', hcomputes', hended, _, _, hhandled'⟩
    obtain ⟨d, calls, hcomputes, _, _, hhandled, hemits, hstream⟩ := h.left_of_closed hhost hclosed
    rw [← List.append_eq_nil_iff, hstream]
    -- otherwise the computation would be one call further
    by_contra hleft
    have hcalls : calls ≠ [] := by
      rintro rfl
      exact hleft rfl
    have hlt := hemits.handled_lt hcalls (hcomputes.to_ended hcomputes' hended) hended
    rw [← hhandled', hhandled] at hlt
    exact lt_irrefl _ hlt
  · rintro ⟨hahead, hpipe⟩
    exact h.ended_of_empty hhost hclosed hahead hpipe

theorem pipe_complete_cTest1 :
    (∃ d, Computes Sample.cTest1 Sample.callbackList (.start Sample.cTest1 Sample.argument ()) d ∧
        d.point = .ended ∧ () = d.state ∧ Sample.message.payload = d.returnBuffer ∧
        [doneRequest Sample.message, Sample.getb] = d.handled) ↔
      ([] : List UInt8) = [] ∧ ([] : List UInt8) = [] :=
  pipe_complete Sample.reach_cTest1Stopped rfl rfl

/-- **`POLLHUP` loses nothing of a module that returns once.** When the loop ends with it, the host
has what the module computes to its end. -/
theorem pipe_hangup (hM : M.ReturnsOnce) (h : Reach M callbackList capacity argument state s)
    (hhost : s.host = .stopped .hangup) :
    ∃ d, Computes M callbackList (.start M argument state) d ∧ d.point = .ended ∧
      s.state = d.state ∧ s.returnBuffer = d.returnBuffer ∧ s.handled = d.handled := by
  have hdrained := h.drained hM
  have hahead : s.ahead = [] := by
    refine hdrained.ahead ?_
    rw [hhost]
    exact nofun
  exact h.ended_of_empty hhost (hdrained.closed (HostState.hung_of_hangup hhost)) hahead
    (hdrained.toHost hhost)

theorem pipe_hangup_cTest1 :
    ∃ d, Computes Sample.cTest1 Sample.callbackList (.start Sample.cTest1 Sample.argument ()) d ∧
      d.point = .ended ∧ () = d.state ∧ Sample.message.payload = d.returnBuffer ∧
      [doneRequest Sample.message, Sample.getb] = d.handled :=
  pipe_hangup Sample.cTest1_returnsOnce Sample.reach_cTest1Stopped rfl

/-- **`waitpid` can lose the result of every module.** Where the result is the last thing that the
module writes, and it fits into the pipe, there is a run in which the module writes it and ends
between `poll` and `waitpid`, and the host stops without it. -/
theorem pipe_loses {g g' : G} {returnBuffer : List UInt8} {handled : List Request} {result : Reply}
    (hargument : argument.payload ≠ [])
    (h : Computes M callbackList (.start M argument state) ⟨.at g, state', returnBuffer, handled⟩)
    (hnext : M.next g = .returnToHost result g') (hend : Emits M (.at g') [] .ended)
    (hrounds : handled.length < maxRounds)
    (hcapacity : (doneRequest result).encode.length ≤ capacity) :
    ∃ s, Reach M callbackList capacity argument state s ∧ s.host = .stopped .waited ∧
      s.process = .exited ∧ s.state = state' ∧ s.returnBuffer = returnBuffer ∧
      s.handled = handled ∧ s.toHost = (doneRequest result).encode := by
  have hpositive : 0 < capacity := by
    rw [Frame.encode_length] at hcapacity
    omega
  have htimeout : Step M callbackList capacity
      (Direct.settled ⟨.at g, state', returnBuffer, handled⟩)
      ⟨.running g, .checking handled.length, [], [], [], state', returnBuffer, handled⟩ :=
    Step.timeout rfl hrounds rfl rfl
  have hwrites : Steps M callbackList capacity
      ⟨.running g, .checking handled.length, [], [], [], state', returnBuffer, handled⟩
      ⟨.running g', .checking handled.length, [], (doneRequest result).encode, [], state',
        returnBuffer, handled⟩ :=
    Relation.ReflTransGen.head (Step.returnToHost rfl hnext)
      (write_call_steps (by rw [List.length_nil, Nat.zero_add]; exact hcapacity))
  have hends : Steps M callbackList capacity
      ⟨.running g', .checking handled.length, [], (doneRequest result).encode, [], state',
        returnBuffer, handled⟩
      ⟨.exited, .stopped .waited, [], (doneRequest result).encode, [], state', returnBuffer,
        handled⟩ :=
    (hend.steps.tail (Step.exit rfl)).tail (Step.waited rfl rfl)
  exact ⟨_, (Reach.start hargument).trans ((h.realized hpositive hrounds.le).trans
    (Relation.ReflTransGen.head htimeout (hwrites.trans hends))), rfl, rfl, rfl, rfl, rfl, rfl⟩

theorem pipe_loses_cTest1 :
    ∃ s, Reach Sample.cTest1 Sample.callbackList 65536 Sample.argument () s ∧
      s.host = .stopped .waited ∧ s.process = .exited ∧ s.state = () ∧ s.returnBuffer = [] ∧
      s.handled = [Sample.getb] ∧ s.toHost = (doneRequest Sample.message).encode :=
  pipe_loses (by decide) Sample.computes_cTest1Result rfl (Emits.exit rfl) (by decide) (by decide)

/-- The module waits for a reply, and nothing is in the pipes: `poll` sees nothing. -/
structure Stalled (s : System G S) : Prop where
  process : ∃ k, s.process = .receiving [] k
  toModule : s.toModule = []
  toHost : s.toHost = []
  host : (∃ round, s.host = .polling round ∨ s.host = .checking round) ∨
    s.host = .stopped .exhausted

/-- Only the rounds go on. -/
theorem Stalled.step (hs : Stalled s) (h : Step M callbackList capacity s s') :
    ∃ host, s' = { s with host := host } ∧ Stalled s' := by
  obtain ⟨⟨k, hprocess⟩, htoModule, htoHost, hhost⟩ := hs
  have hstays : ∀ host : HostState, (∃ round, host = .polling round ∨ host = .checking round) ∨
      host = .stopped .exhausted → Stalled { s with host := host } :=
    fun host hhost => ⟨⟨k, hprocess⟩, htoModule, htoHost, hhost⟩
  cases h with
  | read _ hpipe => cases htoModule.symm.trans hpipe
  | compute hprocess' | callHost hprocess' | returnToHost hprocess' | write hprocess'
  | close hprocess' | exit hprocess' => cases hprocess.symm.trans hprocess'
  | send hhost' | reply hhost' | refill hhost' | wait hhost' | executeCallback hhost'
  | noCall hhost' | partOfCall hhost' =>
      rcases hhost with ⟨round, hhost | hhost⟩ | hhost <;> cases hhost.symm.trans hhost'
  | ready _ _ hpipe => exact absurd htoHost hpipe
  | hangup _ _ _ hclosed | brokenPipe _ hclosed =>
      rw [hprocess] at hclosed
      cases hclosed
  | waited _ hexited => cases hprocess.symm.trans hexited
  | timeout => exact ⟨_, rfl, hstays _ (Or.inl ⟨_, Or.inr rfl⟩)⟩
  | next => exact ⟨_, rfl, hstays _ (Or.inl ⟨_, Or.inl rfl⟩)⟩
  | exhausted => exact ⟨_, rfl, hstays _ (Or.inr rfl)⟩

theorem Stalled.steps (hs : Stalled s) (h : Steps M callbackList capacity s s') :
    ∃ host, s' = { s with host := host } ∧ Stalled s' := by
  induction h with
  | refl => exact ⟨s.host, rfl, hs⟩
  | tail _ hstep ih =>
      obtain ⟨host, rfl, hstalled⟩ := ih
      obtain ⟨host', rfl, hstalled'⟩ := hstalled.step hstep
      exact ⟨host', rfl, hstalled'⟩

/-- **A call in the buffer is not seen by `poll`.** Where the module makes a call just behind a
result, there is a run in which the host takes both from the pipe at once, handles the result, and
never handles the call: it polls an empty pipe until no round is left, and the module waits for the
reply. The result is not empty, and there is a round left to handle it. -/
theorem pipe_stalls {g g' : G} {returnBuffer : List UInt8} {handled : List Request} {result : Reply}
    {call : Request} {k : List UInt8 → G} (hargument : argument.payload ≠ [])
    (h : Computes M callbackList (.start M argument state) ⟨.at g, state', returnBuffer, handled⟩)
    (hnext : M.next g = .returnToHost result g') (hcall : M.next g' = .callHost call k)
    (hresult : result.payload ≠ []) (hrounds : handled.length < maxRounds)
    (hcapacity : (doneRequest result).encode.length + call.encode.length ≤ capacity)
    (hbuffer : (doneRequest result).encode.length + call.encode.length ≤ bufferSize) :
    ∃ s, Reach M callbackList capacity argument state s ∧
      s.handled = doneRequest result :: handled ∧ s.ahead = call.encode ∧
      ∀ t, Steps M callbackList capacity s t → t.process = .receiving [] k ∧
        t.handled = s.handled ∧ t.ahead = s.ahead ∧
        ∀ why, t.host = .stopped why → why = .exhausted := by
  have hpositive : 0 < capacity := by
    rw [Frame.encode_length] at hcapacity
    omega
  have hfirst : ([] : List UInt8).length + (doneRequest result).encode.length ≤ capacity := by
    rw [List.length_nil]
    omega
  -- the module gets ahead of the host by two calls
  have hwrites : Steps M callbackList capacity
      (Direct.settled ⟨.at g, state', returnBuffer, handled⟩)
      ⟨.receiving [] k, .polling handled.length, [], (doneRequest result).encode ++ call.encode, [],
        state', returnBuffer, handled⟩ :=
    Relation.ReflTransGen.head (Step.returnToHost rfl hnext) ((write_call_steps hfirst).trans
      (Relation.ReflTransGen.head (Step.callHost rfl hcall) (write_call_steps hcapacity)))
  -- the host takes both and handles the first
  have hreads : Steps M callbackList capacity
      ⟨.receiving [] k, .polling handled.length, [], (doneRequest result).encode ++ call.encode, [],
        state', returnBuffer, handled⟩
      (System.handle callbackList handled.length false (doneRequest result)
        ⟨.receiving [] k, .polling handled.length, [], [], call.encode, state', returnBuffer,
          handled⟩) :=
    Relation.ReflTransGen.head (Step.ready rfl hrounds (by simp [Frame.encode_ne_nil]))
      (Relation.ReflTransGen.head
        (Step.refill rfl rfl (List.append_nil _).symm (by simp [Frame.encode_ne_nil])
          (by rw [List.length_append]; exact hbuffer))
        (ahead_steps (List.append_nil _).symm rfl))
  simp only [System.handle, executeCallback_doneRequest, if_neg hresult] at hreads
  refine ⟨_, (Reach.start hargument).trans ((h.realized hpositive hrounds.le).trans
    (hwrites.trans hreads)), rfl, rfl, fun t ht => ?_⟩
  have hstalled : Stalled (⟨.receiving [] k, .checking handled.length, [], [], call.encode, state',
      result.payload, doneRequest result :: handled⟩ : System G S) :=
    ⟨⟨k, rfl⟩, rfl, rfl, Or.inl ⟨_, Or.inr rfl⟩⟩
  obtain ⟨host, rfl, hend⟩ := hstalled.steps ht
  refine ⟨rfl, rfl, rfl, fun why hwhy => ?_⟩
  rcases hend.host with ⟨round, hhost | hhost⟩ | hhost
  · cases hhost.symm.trans hwhy
  · cases hhost.symm.trans hwhy
  · cases hhost.symm.trans hwhy
    rfl

theorem pipe_stalls_lateCall :
    ∃ s, Reach Sample.lateCall Sample.callbackList 65536 Sample.argument () s ∧
      s.handled = [doneRequest Sample.message] ∧ s.ahead = Sample.getb.encode ∧
      ∀ t, Steps Sample.lateCall Sample.callbackList 65536 s t →
        t.process = .receiving [] (fun _ => true) ∧ t.handled = s.handled ∧ t.ahead = s.ahead ∧
        ∀ why, t.host = .stopped why → why = .exhausted :=
  pipe_stalls (k := fun _ => true) (by decide) Relation.ReflTransGen.refl rfl rfl (by decide)
    (by decide) (by decide) (by decide)

/-! ## Rounds -/

/-- **The rounds limit the calls**, and the vector that the host returns is the argument of the
latest result among the calls that it has read, or it is empty. -/
theorem pipe_rounds (h : Reach M callbackList capacity argument state s) :
    s.handled.length ≤ maxRounds ∧ s.returnBuffer = lastResult s.handled := by
  obtain ⟨d, hcomputes, hfollows⟩ := h.follows
  refine ⟨h.counted.handled.trans h.counted.rounds, ?_⟩
  rw [hfollows.returnBuffer, hfollows.handled]
  exact hcomputes.returnBuffer rfl

theorem pipe_rounds_cTest1 :
    [doneRequest Sample.message, Sample.getb].length ≤ maxRounds ∧
      Sample.message.payload = lastResult [doneRequest Sample.message, Sample.getb] :=
  pipe_rounds Sample.reach_cTest1Stopped

/-- **The host comes to an end**, whatever the module computes: one that loops, one that calls the
host without end and one that is stuck in a read included. It is enough that neither process is kept
from moving for good. -/
theorem pipe_ends {run : Nat → System G S} (hcapacity : 0 < capacity)
    (hargument : argument.payload ≠ []) (hstart : run 0 = .start M argument state)
    (hrun : Fair.Run (Step M callbackList capacity) run)
    (hhost : Fair.Weak (Step M callbackList capacity) HostMoves run)
    (hmodule : Fair.Weak (Step M callbackList capacity) ModuleMoves run) :
    ∃ n, (run n).host.hasEnded := by
  have hreach : Reach M callbackList capacity argument state (run 0) := by
    rw [hstart]
    exact Reach.start hargument
  exact (serves hcapacity).ends hrun hreach hhost hmodule

theorem pipe_ends_cTest1 :
    ∃ run : Nat → System Sample.CTest1 Unit, run 0 = .start Sample.cTest1 Sample.argument () ∧
      ∃ n, (run n).host.hasEnded := by
  obtain ⟨run, hrun, hstart, n, hend⟩ := Fair.exists_run Sample.steps_cTest1Stopped
  have hstuck : ∀ moves, ¬ Fair.Enabled (Step Sample.cTest1 Sample.callbackList 1) moves
      Sample.cTest1Stopped := fun _ ⟨_, hstep, _⟩ => not_step_of_stopped rfl rfl hstep
  exact ⟨run, hstart, pipe_ends Nat.one_pos (by decide) hstart hrun
    (Fair.Weak.of_stuck (hstuck _) hend) (Fair.Weak.of_stuck (hstuck _) hend)⟩

end DLedger.Dfi
