import DLedger.Dfi.Direct

set_option autoImplicit false

/-! # Runs for computations

A run in which the host and the module take turns byte by byte, so that a pipe of one byte is
enough. What the module computes is done in such a run, as far as the rounds go.
-/

namespace DLedger.Dfi

open Framing

variable {G S : Type} {M : Module G} {callbackList : CallbackList S} {capacity : Nat}
  {s s' : System G S} {d d' : Direct G S} {argument : Reply} {state : S}

/-- Steps one after another. -/
abbrev Steps (M : Module G) (callbackList : CallbackList S) (capacity : Nat) :
    System G S → System G S → Prop :=
  Relation.ReflTransGen (Step M callbackList capacity)

theorem Reach.trans (h : Reach M callbackList capacity argument state s)
    (hs : Steps M callbackList capacity s s') :
    Reach M callbackList capacity argument state s' := by
  induction hs with
  | refl => exact h
  | tail _ hstep ih => exact Reach.step ih hstep

/-- Where a module is that has nothing to write and has got no byte of a reply. -/
def Point.process : Point G → ModuleState G
  | .at g => .running g
  | .waiting k => .receiving [] k
  | .ended => .closed

/-! ## One block -/

section Blocks

variable {toModule returnBuffer : List UInt8} {handled : List Request}

/-- The host writes a block and the module reads it. -/
theorem feed_steps (write : List UInt8 → HostState)
    (hwrite : ∀ {s : System G S} {b : UInt8} {rest : List UInt8}, s.host = write (b :: rest) →
      s.process.isClosed = false → s.toModule.length < capacity →
      Step M callbackList capacity s
        { s with host := write rest, toModule := s.toModule ++ [b] })
    (hcapacity : 0 < capacity) {reply : Reply} {pending got : List UInt8} {k : List UInt8 → G}
    (hstream : got ++ pending = replyCode.encode reply ++ [])
    (hshort : replyCode.decode got = none) :
    Steps M callbackList capacity
      ⟨.receiving got k, write pending, [], [], [], state, returnBuffer, handled⟩
      ⟨.running (k reply.payload), write [], [], [], [], state, returnBuffer, handled⟩ := by
  induction pending generalizing got with
  | nil => exact absurd rfl (PrefixCode.rest_ne_nil hstream hshort)
  | cons b rest ih =>
      refine Relation.ReflTransGen.head (hwrite rfl rfl hcapacity)
        (Relation.ReflTransGen.head (Step.read rfl rfl) ?_)
      rcases PrefixCode.decode_next hstream hshort with hnone | ⟨hsome, hrest⟩
      · have hread : ModuleState.read (got ++ [b]) k = .receiving (got ++ [b]) k := by
          rw [ModuleState.read, hnone]
        rw [hread]
        exact ih (by rw [← hstream, List.append_assoc]; rfl) hnone
      · have hread : ModuleState.read (got ++ [b]) k = .running (k reply.payload) := by
          rw [ModuleState.read, hsome]
        rw [hread, hrest]

/-- The module writes a call and the host reads it; the first byte is in the buffer. -/
theorem take_steps {round : Nat} {hup : Bool} {b : UInt8} {got rest : List UInt8} {call : Request}
    {after : After G} (hcapacity : 0 < capacity)
    (hstream : got ++ b :: rest = requestCode.encode call ++ [])
    (hshort : requestCode.decode got = none) :
    Steps M callbackList capacity
      ⟨.write rest after, .receiving round hup got, toModule, [], [b], state, returnBuffer,
        handled⟩
      (System.handle callbackList round hup call
        ⟨.after after, .polling round, toModule, [], [], state, returnBuffer, handled⟩) := by
  induction rest generalizing got b with
  | nil =>
      rcases PrefixCode.decode_next hstream hshort with hnone | ⟨hsome, _⟩
      · have hrest : (got ++ [b]) ++ [] = requestCode.encode call ++ [] := by
          rw [List.append_nil]
          exact hstream
        exact absurd rfl (PrefixCode.rest_ne_nil hrest hnone)
      · exact Relation.ReflTransGen.single (Step.executeCallback rfl rfl hsome)
  | cons b' rest ih =>
      rcases PrefixCode.decode_next hstream hshort with hnone | ⟨_, hrest⟩
      · refine Relation.ReflTransGen.head (Step.wait rfl rfl hnone)
          (Relation.ReflTransGen.head (Step.write rfl hcapacity)
            (Relation.ReflTransGen.head
              (Step.refill rfl rfl (List.append_nil _).symm (List.cons_ne_nil _ _)
                (Nat.succ_le_succ (Nat.zero_le _))) ?_))
        exact ih (by rw [← hstream, List.append_assoc]; rfl) hnone
      · cases hrest

/-- The host reads a call that its buffer holds. -/
theorem ahead_steps {round : Nat} {hup : Bool} {got pending more toHost : List UInt8}
    {call : Request} {process : ModuleState G}
    (hstream : got ++ pending = requestCode.encode call ++ [])
    (hshort : requestCode.decode got = none) :
    Steps M callbackList capacity
      ⟨process, .receiving round hup got, toModule, toHost, pending ++ more, state, returnBuffer,
        handled⟩
      (System.handle callbackList round hup call
        ⟨process, .polling round, toModule, toHost, more, state, returnBuffer, handled⟩) := by
  induction pending generalizing got with
  | nil => exact absurd rfl (PrefixCode.rest_ne_nil hstream hshort)
  | cons b rest ih =>
      rcases PrefixCode.decode_next hstream hshort with hnone | ⟨hsome, rfl⟩
      · refine Relation.ReflTransGen.head (Step.wait rfl rfl hnone) ?_
        exact ih (by rw [← hstream, List.append_assoc]; rfl) hnone
      · exact Relation.ReflTransGen.single (Step.executeCallback rfl rfl hsome)

/-- A round of the loop with a call in it. -/
theorem call_steps {round : Nat} {call : Request} {after : After G} (hcapacity : 0 < capacity)
    (hround : round < maxRounds) :
    Steps M callbackList capacity
      ⟨.writing call.encode after, .polling round, toModule, [], [], state, returnBuffer, handled⟩
      (System.handle callbackList round false call
        ⟨.after after, .polling round, toModule, [], [], state, returnBuffer, handled⟩) := by
  obtain ⟨b, rest, hencode⟩ := List.exists_cons_of_ne_nil call.encode_ne_nil
  rw [hencode]
  have hopen : (ModuleState.write rest after).isClosed = false := by
    unfold ModuleState.write
    split_ifs
    · cases after <;> rfl
    · rfl
  refine Relation.ReflTransGen.head (Step.write rfl hcapacity)
    (Relation.ReflTransGen.head (Step.ready rfl hround (List.cons_ne_nil _ _))
      (Relation.ReflTransGen.head
        (Step.refill rfl rfl (List.append_nil _).symm (List.cons_ne_nil _ _)
                (Nat.succ_le_succ (Nat.zero_le _))) ?_))
  simp only [hopen]
  refine take_steps hcapacity ?_ rfl
  rw [List.append_nil]
  exact hencode.symm

theorem write_steps {pending toHost ahead : List UInt8} {host : HostState} {after : After G}
    (hcapacity : toHost.length + pending.length ≤ capacity) :
    Steps M callbackList capacity
      ⟨.write pending after, host, toModule, toHost, ahead, state, returnBuffer, handled⟩
      ⟨.after after, host, toModule, toHost ++ pending, ahead, state, returnBuffer, handled⟩ := by
  induction pending generalizing toHost with
  | nil =>
      rw [List.append_nil]
      exact Relation.ReflTransGen.refl
  | cons b rest ih =>
      rw [List.length_cons] at hcapacity
      have hpipe : toHost.length < capacity := by omega
      refine Relation.ReflTransGen.head (Step.write rfl hpipe) ?_
      have hroom : (toHost ++ [b]).length + rest.length ≤ capacity := by
        rw [List.length_append, List.length_singleton]
        omega
      have hrest := ih hroom
      rw [List.append_assoc] at hrest
      exact hrest

/-- The module writes a call and the host does nothing: the pipe holds it all. -/
theorem write_call_steps {call : Request} {toHost ahead : List UInt8} {host : HostState}
    {after : After G} (hcapacity : toHost.length + call.encode.length ≤ capacity) :
    Steps M callbackList capacity
      ⟨.writing call.encode after, host, toModule, toHost, ahead, state, returnBuffer, handled⟩
      ⟨.after after, host, toModule, toHost ++ call.encode, ahead, state, returnBuffer,
        handled⟩ := by
  have hwrite : ModuleState.write call.encode after = .writing call.encode after :=
    if_neg call.encode_ne_nil
  rw [← hwrite]
  exact write_steps hcapacity

/-- The module gets further without a call. -/
theorem Emits.steps {p q : Point G} {host : HostState} {toHost ahead : List UInt8}
    (h : Emits M p [] q) : Steps M callbackList capacity
      ⟨p.process, host, toModule, toHost, ahead, state, returnBuffer, handled⟩
      ⟨q.process, host, toModule, toHost, ahead, state, returnBuffer, handled⟩ := by
  generalize hall : ([] : List Request) = all at h
  induction h with
  | refl p => exact Relation.ReflTransGen.refl
  | compute hnext _ ih => exact Relation.ReflTransGen.head (Step.compute rfl hnext) (ih hall)
  | exit hnext => exact Relation.ReflTransGen.single (Step.close rfl hnext)
  | returnToHost => cases hall
  | callHost => cases hall

end Blocks

/-! ## Computations -/

/-- Nothing is on its way, and there has been a round for each call. -/
def Direct.settled (d : Direct G S) : System G S where
  process := d.point.process
  host := .polling d.handled.length
  toModule := []
  toHost := []
  ahead := []
  state := d.state
  returnBuffer := d.returnBuffer
  handled := d.handled

theorem start_realized (hcapacity : 0 < capacity) : Steps M callbackList capacity
    (.start M argument state) (Direct.settled (.start M argument state)) := by
  have hsend : HostState.send argument.encode = .sending argument.encode :=
    if_neg argument.encode_ne_nil
  unfold System.start
  rw [← hsend]
  refine feed_steps HostState.send (fun hhost hopen hpipe => Step.send ?_ hopen hpipe) hcapacity
    (List.append_nil _).symm rfl
  rw [hhost]
  exact if_neg (List.cons_ne_nil _ _)

/-- **A step of the computation is a round of the host**, or it needs none. -/
theorem DirectStep.realized (hcapacity : 0 < capacity) (h : DirectStep M callbackList d d')
    (hrounds : d'.handled.length ≤ maxRounds) :
    Steps M callbackList capacity d.settled d'.settled := by
  cases h with
  | compute hnext => exact Relation.ReflTransGen.single (Step.compute rfl hnext)
  | exit hnext => exact Relation.ReflTransGen.single (Step.close rfl hnext)
  | @returnToHost g g' argument state state' returnBuffer returnBuffer' handled hnext hcall =>
      refine Relation.ReflTransGen.head (Step.returnToHost rfl hnext) ?_
      refine Relation.ReflTransGen.trans (call_steps hcapacity hrounds) ?_
      simp only [System.handle, Direct.settled, hcall]
      exact Relation.ReflTransGen.single (Step.next rfl nofun)
  | @noReply g call k state state' returnBuffer returnBuffer' handled hnext hcall =>
      refine Relation.ReflTransGen.head (Step.callHost rfl hnext) ?_
      refine Relation.ReflTransGen.trans (call_steps hcapacity hrounds) ?_
      simp only [System.handle, Direct.settled, hcall]
      exact Relation.ReflTransGen.single (Step.next rfl nofun)
  | @callHost g call k state state' returnBuffer returnBuffer' handled reply hnext hcall =>
      refine Relation.ReflTransGen.head (Step.callHost rfl hnext) ?_
      refine Relation.ReflTransGen.trans (call_steps hcapacity hrounds) ?_
      simp only [System.handle, Direct.settled, hcall]
      have hreply : HostState.reply handled.length false reply.encode
          = .replying handled.length false reply.encode := if_neg reply.encode_ne_nil
      rw [← hreply]
      refine Relation.ReflTransGen.tail (feed_steps (HostState.reply handled.length false)
        (fun hhost hopen hpipe => Step.reply ?_ hopen hpipe) hcapacity
        (List.append_nil _).symm rfl) (Step.next rfl nofun)
      rw [hhost]
      exact if_neg (List.cons_ne_nil _ _)

/-- **What the module computes is done in some run**, as far as the rounds go. -/
theorem Computes.realized (hcapacity : 0 < capacity)
    (h : Computes M callbackList (.start M argument state) d)
    (hrounds : d.handled.length ≤ maxRounds) :
    Steps M callbackList capacity (.start M argument state) d.settled := by
  induction h with
  | refl => exact start_realized hcapacity
  | tail _ hstep ih =>
      have hle := Computes.handled_le (Relation.ReflTransGen.single hstep)
      exact (ih (hle.trans hrounds)).trans (hstep.realized hcapacity hrounds)

end DLedger.Dfi
