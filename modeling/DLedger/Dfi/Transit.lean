import DLedger.Dfi.Direct

set_option autoImplicit false

/-! # What is in transit

Between the two processes there is a reply on its way to the module, or there are calls on their
way to the host. In both cases the host is at one point of the direct computation, and the module
may have run ahead of it.
-/

namespace DLedger.Dfi

open Framing

variable {G S : Type}

/-! ## The places of bytes -/

/-- What the host has read of a call. -/
def HostState.got : HostState → List UInt8
  | receiving _ _ got => got
  | _ => []

def HostState.isIdle : HostState → Bool
  | polling _ => true
  | checking _ => true
  | stopped _ => true
  | _ => false

namespace ModuleState

def pending : ModuleState G → List UInt8
  | writing pending _ => pending
  | _ => []

/-- The module has got to a point, though it may still be writing. -/
def IsAt : ModuleState G → Point G → Prop
  | running g, p => p = .at g
  | writing pending (.resume g), p => pending ≠ [] ∧ p = .at g
  | writing pending (.await k), p => pending ≠ [] ∧ p = .waiting k
  | receiving got k, p => got = [] ∧ p = .waiting k
  | closed, p => p = .ended
  | exited, p => p = .ended

theorem write_pending (rest : List UInt8) (after : After G) :
    (write rest after).pending = rest := by
  unfold write
  split_ifs with hrest
  · rw [hrest]
    cases after <;> rfl
  · rfl

theorem IsAt.write {b : UInt8} {rest : List UInt8} {after : After G} {p : Point G}
    (h : IsAt (writing (b :: rest) after) p) : IsAt (write rest after) p := by
  unfold ModuleState.write
  cases after with
  | await k =>
      split_ifs with hrest
      · exact ⟨rfl, h.2⟩
      · exact ⟨hrest, h.2⟩
  | resume g =>
      split_ifs with hrest
      · exact h.2
      · exact ⟨hrest, h.2⟩

end ModuleState

namespace HostState

theorem send_pending (rest : List UInt8) : (send rest).pending = rest := by
  unfold send
  split_ifs with hrest
  · exact hrest.symm
  · rfl

theorem send_idle (rest : List UInt8) : (send rest).isIdle = true ∨ (send rest).pending ≠ [] := by
  rw [send_pending]
  unfold send
  split_ifs with hrest
  · exact Or.inl rfl
  · exact Or.inr hrest

theorem behind_idle (round : Nat) (hup : Bool) : (behind round hup).isIdle = true := by
  cases hup <;> rfl

theorem behind_pending (round : Nat) (hup : Bool) : (behind round hup).pending = [] := by
  cases hup <;> rfl

theorem reply_pending (round : Nat) (hup : Bool) (rest : List UInt8) :
    (reply round hup rest).pending = rest := by
  unfold reply
  split_ifs with hrest
  · rw [behind_pending, hrest]
  · rfl

theorem reply_idle (round : Nat) (hup : Bool) (rest : List UInt8) :
    (reply round hup rest).isIdle = true ∨ (reply round hup rest).pending ≠ [] := by
  rw [reply_pending]
  unfold reply
  split_ifs with hrest
  · exact Or.inl (behind_idle round hup)
  · exact Or.inr hrest

theorem pending_of_idle {h : HostState} (hidle : h.isIdle = true) : h.pending = [] := by
  cases h <;> first | rfl | cases hidle

theorem got_of_idle {h : HostState} (hidle : h.isIdle = true) : h.got = [] := by
  cases h <;> first | rfl | cases hidle

end HostState

/-! ## The two ways -/

/-- A reply is on its way to the module, which waits for it. -/
structure Incoming (s : System G S) (p : Point G) (got : List UInt8) (k : List UInt8 → G)
    (reply : Reply) : Prop where
  process : s.process = .receiving got k
  stream : got ++ (s.toModule ++ s.host.pending) = replyCode.encode reply ++ []
  short : replyCode.decode got = none
  point : p = .at (k reply.payload)
  toHost : s.toHost = []
  ahead : s.ahead = []
  host : s.host.isIdle = true ∨ s.host.pending ≠ []

/-- Calls are on their way to the host. -/
structure Outgoing (M : Module G) (s : System G S) (p : Point G) (calls : List Request)
    (q : Point G) : Prop where
  emits : Emits M p calls q
  stream : s.host.got ++ (s.ahead ++ (s.toHost ++ s.process.pending)) = requestCode.encodeAll calls
  process : s.process.IsAt q
  toModule : s.toModule = []
  host : s.host.isIdle = true ∨ ∃ round hup got,
    s.host = .receiving round hup got ∧ requestCode.decode got = none ∧ calls ≠ []

/-- The computation is at a call for which an assertion of the host fails. -/
def Fails (M : Module G) (callbackList : CallbackList S) (d : Direct G S) : Prop :=
  ∃ g call, d.point = .at g ∧
    ((∃ argument g', M.next g = .returnToHost argument g' ∧ call = doneRequest argument) ∨
      ∃ k, M.next g = .callHost call k) ∧
    executeCallback callbackList call (d.state, d.returnBuffer) = none

/-- The host has got as far as the computation. -/
structure Follows (M : Module G) (callbackList : CallbackList S) (s : System G S)
    (d : Direct G S) : Prop where
  state : s.state = d.state
  returnBuffer : s.returnBuffer = d.returnBuffer
  handled : s.handled = d.handled
  place : (s.host = .aborted ∧ Fails M callbackList d) ∨
    (∃ got k reply, Incoming s d.point got k reply) ∨ ∃ calls q, Outgoing M s d.point calls q

variable {M : Module G} {callbackList : CallbackList S} {capacity : Nat} {s s' : System G S}
  {d : Direct G S} {p q : Point G} {calls : List Request} {got : List UInt8}
  {k : List UInt8 → G} {reply : Reply}

theorem follows_start {argument : Reply} {state : S} :
    Follows M callbackList (.start M argument state) (.start M argument state) := by
  refine ⟨rfl, rfl, rfl, Or.inr (Or.inl ⟨[], M.start, argument, ?_⟩)⟩
  exact ⟨rfl, (List.append_nil _).symm, rfl, rfl, rfl, rfl, Or.inr argument.encode_ne_nil⟩

/-! ## Steps while a reply is on its way -/

theorem Incoming.read (h : Incoming s p got k reply) {b : UInt8} {rest : List UInt8}
    (hpipe : s.toModule = b :: rest) :
    (∃ got', Incoming { s with process := .read (got ++ [b]) k, toModule := rest } p got' k reply) ∨
      Outgoing M { s with process := .read (got ++ [b]) k, toModule := rest } p [] p := by
  have hstream := h.stream
  rw [hpipe] at hstream
  rcases PrefixCode.decode_next hstream h.short with hnone | ⟨hsome, hrest⟩
  · left
    have hread : ModuleState.read (got ++ [b]) k = .receiving (got ++ [b]) k := by
      rw [ModuleState.read, hnone]
    refine ⟨got ++ [b], hread, ?_, hnone, h.point, h.toHost, h.ahead, h.host⟩
    rw [← hstream, List.append_assoc]
    rfl
  · right
    have hread : ModuleState.read (got ++ [b]) k = .running (k reply.payload) := by
      rw [ModuleState.read, hsome]
    obtain ⟨hnil, hpending⟩ := List.append_eq_nil_iff.1 hrest
    have hidle : s.host.isIdle = true := h.host.resolve_right fun hne => hne hpending
    refine ⟨Emits.refl p, ?_, ?_, hnil, Or.inl hidle⟩
    · simp only [HostState.got_of_idle hidle, h.ahead, h.toHost, hread]
      rfl
    · simp only [hread]
      exact h.point

/-- The host writes the reply, or does nothing with the pipes. -/
theorem Incoming.host_step (h : Incoming s p got k reply) {host : HostState}
    {toModule : List UInt8} (hstream : toModule ++ host.pending = s.toModule ++ s.host.pending)
    (hidle : host.isIdle = true ∨ host.pending ≠ []) :
    Incoming { s with host := host, toModule := toModule } p got k reply :=
  ⟨h.process, by rw [← h.stream, ← hstream], h.short, h.point, h.toHost, h.ahead, hidle⟩

/-! ## Steps while calls are on their way -/

theorem Outgoing.host_pending (h : Outgoing M s p calls q) : s.host.pending = [] := by
  rcases h.host with hidle | ⟨round, hup, got, hhost, _⟩
  · exact HostState.pending_of_idle hidle
  · rw [hhost]
    rfl

/-- The module gets further and has perhaps more to write. -/
theorem Outgoing.module_step (h : Outgoing M s p calls q) {calls' : List Request} {q' : Point G}
    {process : ModuleState G} (hq : ∀ k, q ≠ .waiting k) (hnone : s.process.pending = [])
    (hemits : Emits M q calls' q') (hpending : process.pending = requestCode.encodeAll calls')
    (hprocess : process.IsAt q') :
    Outgoing M { s with process := process } p (calls ++ calls') q' := by
  refine ⟨h.emits.trans hemits hq, ?_, hprocess, h.toModule, ?_⟩
  · have hstream := h.stream
    rw [hnone, List.append_nil] at hstream
    rw [requestCode.encodeAll_append, ← hstream, ← hpending]
    simp only [List.append_assoc]
  · rcases h.host with hidle | ⟨round, hup, got, hhost, hdecode, hcalls⟩
    · exact Or.inl hidle
    · exact Or.inr ⟨round, hup, got, hhost, hdecode, by simp [hcalls]⟩

theorem Outgoing.write (h : Outgoing M s p calls q) {b : UInt8} {rest : List UInt8}
    {after : After G} (hprocess : s.process = .writing (b :: rest) after) :
    Outgoing M { s with process := .write rest after, toHost := s.toHost ++ [b] } p calls q := by
  refine ⟨h.emits, ?_, ?_, h.toModule, h.host⟩
  · have hstream := h.stream
    rw [hprocess] at hstream
    rw [← hstream]
    simp only [ModuleState.write_pending, List.append_assoc]
    rfl
  · have hat := h.process
    rw [hprocess] at hat
    exact hat.write

/-- The host reads no call. -/
theorem Outgoing.host_step (h : Outgoing M s p calls q) (hidle : s.host.isIdle = true)
    {host : HostState} (hhost : host.isIdle = true) :
    Outgoing M { s with host := host } p calls q := by
  refine ⟨h.emits, ?_, h.process, h.toModule, Or.inl hhost⟩
  have hstream := h.stream
  rw [HostState.got_of_idle hidle] at hstream
  rw [← hstream]
  simp only [HostState.got_of_idle hhost]

theorem Outgoing.ready (h : Outgoing M s p calls q) (hidle : s.host.isIdle = true)
    (hpipe : s.toHost ≠ []) (round : Nat) (hup : Bool) :
    Outgoing M { s with host := .receiving round hup [] } p calls q := by
  have hstream := h.stream
  rw [HostState.got_of_idle hidle] at hstream
  refine ⟨h.emits, hstream, h.process, h.toModule, Or.inr ⟨round, hup, [], rfl, rfl, ?_⟩⟩
  rintro rfl
  simp only [PrefixCode.encodeAll_nil, List.append_eq_nil_iff] at hstream
  exact hpipe hstream.2.2.1

theorem Outgoing.refill (h : Outgoing M s p calls q) {chunk rest : List UInt8}
    (hahead : s.ahead = []) (hpipe : s.toHost = chunk ++ rest) :
    Outgoing M { s with ahead := chunk, toHost := rest } p calls q := by
  refine ⟨h.emits, ?_, h.process, h.toModule, h.host⟩
  rw [← h.stream, hahead, hpipe]
  simp only [List.append_assoc, List.nil_append]

/-- The host has begun to read a call. -/
theorem Outgoing.first_call (h : Outgoing M s p calls q) {round : Nat} {hup : Bool}
    {got : List UInt8} (hhost : s.host = .receiving round hup got) :
    ∃ call calls', calls = call :: calls' ∧ requestCode.decode got = none ∧
      got ++ (s.ahead ++ (s.toHost ++ s.process.pending))
        = requestCode.encode call ++ requestCode.encodeAll calls' := by
  rcases h.host with hidle | ⟨_, _, got', hhost', hdecode, hcalls⟩
  · rw [hhost] at hidle
    cases hidle
  rw [hhost] at hhost'
  cases hhost'
  obtain ⟨call, calls', rfl⟩ := List.exists_cons_of_ne_nil hcalls
  have hstream := h.stream
  rw [hhost] at hstream
  exact ⟨call, calls', rfl, hdecode, hstream⟩

theorem Outgoing.wait (h : Outgoing M s p calls q) {round : Nat} {hup : Bool}
    {got rest : List UInt8} {b : UInt8} (hhost : s.host = .receiving round hup got)
    (hahead : s.ahead = b :: rest) (hcall : requestCode.decode (got ++ [b]) = none) :
    Outgoing M { s with host := .receiving round hup (got ++ [b]), ahead := rest } p calls q := by
  obtain ⟨call, calls', rfl, _, hstream⟩ := h.first_call hhost
  refine ⟨h.emits, ?_, h.process, h.toModule, Or.inr ⟨round, hup, _, rfl, hcall, by simp⟩⟩
  rw [PrefixCode.encodeAll_cons, ← hstream, hahead]
  simp only [HostState.got, List.append_assoc]
  rfl

/-- The host waits for the rest of a call, so there is a rest. -/
theorem Outgoing.rest_ne_nil (h : Outgoing M s p calls q) {round : Nat} {hup : Bool}
    {got : List UInt8} (hhost : s.host = .receiving round hup got) :
    s.ahead ++ (s.toHost ++ s.process.pending) ≠ [] := by
  obtain ⟨call, calls', _, hdecode, hstream⟩ := h.first_call hhost
  exact PrefixCode.rest_ne_nil hstream hdecode

/-- Nothing is behind the last call: the module waits for the reply. -/
theorem Outgoing.receiving_of_waiting (h : Outgoing M s p calls (.waiting k))
    (hpending : s.process.pending = []) : s.process = .receiving [] k := by
  have hat := h.process
  cases hprocess : s.process with
  | receiving got k' =>
      rw [hprocess] at hat
      obtain ⟨rfl, hpoint⟩ := hat
      cases hpoint
      rfl
  | writing pending after =>
      rw [hprocess] at hat hpending
      cases hpending
      cases after <;> exact absurd rfl hat.1
  | running g =>
      rw [hprocess] at hat
      cases hat
  | closed =>
      rw [hprocess] at hat
      cases hat
  | exited =>
      rw [hprocess] at hat
      cases hat

/-- **The host has read a call.** It does what the computation does next. -/
theorem Outgoing.handle (h : Outgoing M s d.point calls q) {round : Nat} {hup : Bool}
    {rest : List UInt8} {b : UInt8} {call : Request} (hhost : s.host = .receiving round hup got)
    (hahead : s.ahead = b :: rest) (hcall : requestCode.decode (got ++ [b]) = some call)
    (hstate : s.state = d.state) (hbuffer : s.returnBuffer = d.returnBuffer)
    (hhandled : s.handled = d.handled) :
    ∃ d', Computes M callbackList d d' ∧
      Follows M callbackList (System.handle callbackList round hup call { s with ahead := rest })
        d' := by
  obtain ⟨first, calls', rfl, hdecode, hstream⟩ := h.first_call hhost
  rw [hahead] at hstream
  obtain ⟨hfirst, hrest⟩ := (PrefixCode.decode_next hstream hdecode).resolve_left
    fun hnone => by rw [hcall] at hnone; cases hnone
  rw [hcall] at hfirst
  cases hfirst
  obtain ⟨point, state, returnBuffer, handled⟩ := d
  simp only at h hstate hbuffer hhandled
  subst hstate hbuffer hhandled
  obtain ⟨g, hcomputes, hnext⟩ := h.emits.uncons callbackList s.state s.returnBuffer s.handled
  cases hexec : executeCallback callbackList call (s.state, s.returnBuffer) with
  | none =>
      -- an assertion fails
      refine ⟨_, hcomputes, ?_⟩
      simp only [System.handle, hexec]
      refine ⟨rfl, rfl, rfl, Or.inl ⟨rfl, g, call, rfl, ?_, hexec⟩⟩
      rcases hnext with ⟨argument, g', hnext, heq, _⟩ | ⟨k, hnext, _⟩
      · exact Or.inl ⟨argument, g', hnext, heq⟩
      · exact Or.inr ⟨k, hnext⟩
  | some result =>
      obtain ⟨⟨state', returnBuffer'⟩, none | reply⟩ := result
      · simp only [System.handle, hexec]
        rcases hnext with ⟨argument, g', hnext, rfl, hemits⟩ | ⟨k, hnext, rfl, rfl⟩
        · refine ⟨_, hcomputes.tail (DirectStep.returnToHost hnext hexec), rfl, rfl, rfl,
            Or.inr (Or.inr ⟨calls', q, hemits, ?_, h.process, h.toModule, Or.inl ?_⟩)⟩
          · rw [HostState.got_of_idle (HostState.behind_idle round hup)]
            exact hrest
          · exact HostState.behind_idle round hup
        · refine ⟨_, hcomputes.tail (DirectStep.noReply hnext hexec), rfl, rfl, rfl,
            Or.inr (Or.inr ⟨[], _, Emits.refl _, ?_, h.process, h.toModule, Or.inl ?_⟩)⟩
          · rw [HostState.got_of_idle (HostState.behind_idle round hup)]
            exact hrest
          · exact HostState.behind_idle round hup
      · simp only [System.handle, hexec]
        rcases hnext with ⟨argument, g', hnext, rfl, hemits⟩ | ⟨k, hnext, rfl, rfl⟩
        · rw [executeCallback_doneRequest] at hexec
          split_ifs at hexec
          cases hexec
        · -- the module has nothing more to write, for it waits
          have hnone : rest ++ (s.toHost ++ s.process.pending) = [] := hrest
          obtain ⟨hnil, hnone⟩ := List.append_eq_nil_iff.1 hnone
          obtain ⟨htoHost, hpending⟩ := List.append_eq_nil_iff.1 hnone
          have hprocess := h.receiving_of_waiting hpending
          refine ⟨_, hcomputes.tail (DirectStep.callHost hnext hexec), rfl, rfl, rfl,
            Or.inr (Or.inl ⟨[], k, reply, hprocess, ?_, rfl, rfl, htoHost, hnil,
              Or.inr reply.encode_ne_nil⟩)⟩
          simp only [h.toModule, List.nil_append, List.append_nil]
          rfl

/-! ## Every step -/

theorem Follows.aborted_step (hs : Follows M callbackList s d) (habort : s.host = .aborted)
    (hfails : Fails M callbackList d) (h : Step M callbackList capacity s s') :
    Follows M callbackList s' d := by
  have hsame : ∀ t : System G S, t.host = s.host → t.state = s.state →
      t.returnBuffer = s.returnBuffer → t.handled = s.handled → Follows M callbackList t d :=
    fun t hhost hstate hbuffer hhandled => ⟨hstate.trans hs.state, hbuffer.trans hs.returnBuffer,
      hhandled.trans hs.handled, Or.inl ⟨hhost.trans habort, hfails⟩⟩
  cases h with
  | read | compute | callHost | returnToHost | write | close | exit =>
      exact hsame _ rfl rfl rfl rfl
  | brokenPipe hhost => exact absurd (by rw [habort]; rfl) hhost
  | send hhost | ready hhost | hangup hhost | timeout hhost | exhausted hhost | refill hhost
  | wait hhost | executeCallback hhost | noCall hhost | partOfCall hhost | reply hhost
  | waited hhost | next hhost =>
      rw [habort] at hhost
      cases hhost

theorem Follows.incoming_step (hs : Follows M callbackList s d) {got : List UInt8}
    (hin : Incoming s d.point got k reply) (h : Step M callbackList capacity s s') :
    Follows M callbackList s' d := by
  have hopen : s.process.isClosed = false := by
    rw [hin.process]
    rfl
  have hwaits : ∀ host toModule, toModule ++ host.pending = s.toModule ++ s.host.pending →
      (host.isIdle = true ∨ host.pending ≠ []) →
      Follows M callbackList { s with host := host, toModule := toModule } d :=
    fun host toModule hstream hidle => ⟨hs.state, hs.returnBuffer, hs.handled,
      Or.inr (Or.inl ⟨got, k, reply, hin.host_step hstream hidle⟩)⟩
  have hidles : ∀ host, s.host.isIdle = true → host.isIdle = true →
      Follows M callbackList { s with host := host } d := fun host hidle hidle' =>
    hwaits host s.toModule (by rw [HostState.pending_of_idle hidle,
      HostState.pending_of_idle hidle']) (Or.inl hidle')
  -- while the reply is on its way no call is read
  have hreads : ∀ round hup got', s.host ≠ .receiving round hup got' := by
    intro round hup got' hhost
    have hidle := hin.host
    rw [hhost] at hidle
    rcases hidle with hidle | hpending
    · cases hidle
    · exact hpending rfl
  cases h with
  | @read got' rest b k' hprocess hpipe =>
      rw [hin.process] at hprocess
      cases hprocess
      rcases hin.read (M := M) hpipe with ⟨got', hin'⟩ | hout
      · exact ⟨hs.state, hs.returnBuffer, hs.handled, Or.inr (Or.inl ⟨got', k, reply, hin'⟩)⟩
      · exact ⟨hs.state, hs.returnBuffer, hs.handled, Or.inr (Or.inr ⟨[], _, hout⟩)⟩
  | compute hprocess | callHost hprocess | returnToHost hprocess | write hprocess
  | close hprocess | exit hprocess =>
      rw [hin.process] at hprocess
      cases hprocess
  | @send rest b hhost =>
      refine hwaits _ _ ?_ (HostState.send_idle rest)
      rw [HostState.send_pending, hhost, List.append_assoc]
      rfl
  | @reply round hup rest b hhost =>
      refine hwaits _ _ ?_ (HostState.reply_idle round hup rest)
      rw [HostState.reply_pending, hhost, List.append_assoc]
      rfl
  | ready _ _ hpipe => exact absurd hin.toHost hpipe
  | hangup _ _ _ hclosed | noCall _ _ _ hclosed | partOfCall _ _ _ _ hclosed
  | brokenPipe _ hclosed =>
      rw [hopen] at hclosed
      cases hclosed
  | waited _ hexited =>
      rw [hin.process] at hexited
      cases hexited
  | timeout hhost | exhausted hhost | next hhost =>
      exact hidles _ (by rw [hhost]; rfl) rfl
  | refill hhost | wait hhost | executeCallback hhost => exact absurd hhost (hreads _ _ _)

theorem Follows.outgoing_step (hs : Follows M callbackList s d)
    (hout : Outgoing M s d.point calls q) (h : Step M callbackList capacity s s') :
    ∃ d', Computes M callbackList d d' ∧ Follows M callbackList s' d' := by
  have hstays : ∀ t calls' q', Outgoing M t d.point calls' q' → t.state = s.state →
      t.returnBuffer = s.returnBuffer → t.handled = s.handled →
      ∃ d', Computes M callbackList d d' ∧ Follows M callbackList t d' :=
    fun t calls' q' hout' hstate hbuffer hhandled => ⟨d, Relation.ReflTransGen.refl,
      hstate.trans hs.state, hbuffer.trans hs.returnBuffer, hhandled.trans hs.handled,
      Or.inr (Or.inr ⟨calls', q', hout'⟩)⟩
  have hidles : ∀ host, s.host.isIdle = true → host.isIdle = true →
      ∃ d', Computes M callbackList d d' ∧ Follows M callbackList { s with host := host } d' :=
    fun host hidle hidle' => hstays _ calls q (hout.host_step hidle hidle') rfl rfl rfl
  cases h with
  | read _ hpipe =>
      rw [hout.toModule] at hpipe
      cases hpipe
  | @compute g g' hprocess hnext =>
      have hat := hout.process
      rw [hprocess] at hat
      subst hat
      exact hstays _ _ _ (hout.module_step nofun (by rw [hprocess]; rfl)
        (Emits.compute hnext (Emits.refl _)) rfl rfl) rfl rfl rfl
  | @callHost g call k' hprocess hnext =>
      have hat := hout.process
      rw [hprocess] at hat
      subst hat
      exact hstays _ _ _ (hout.module_step nofun (by rw [hprocess]; rfl)
        (Emits.callHost hnext) (List.append_nil _).symm ⟨call.encode_ne_nil, rfl⟩) rfl rfl rfl
  | @returnToHost g g' argument hprocess hnext =>
      have hat := hout.process
      rw [hprocess] at hat
      subst hat
      exact hstays _ _ _ (hout.module_step nofun (by rw [hprocess]; rfl)
        (Emits.returnToHost hnext (Emits.refl _)) (List.append_nil _).symm
        ⟨(doneRequest argument).encode_ne_nil, rfl⟩) rfl rfl rfl
  | @close g hprocess hnext =>
      have hat := hout.process
      rw [hprocess] at hat
      subst hat
      exact hstays _ _ _ (hout.module_step nofun (by rw [hprocess]; rfl)
        (Emits.exit hnext) rfl rfl) rfl rfl rfl
  | write hprocess => exact hstays _ _ _ (hout.write hprocess) rfl rfl rfl
  | exit hprocess =>
      have hat := hout.process
      rw [hprocess] at hat
      have hended : q = .ended := hat
      subst hended
      have hexit : Outgoing M { s with process := .exited } d.point (calls ++ []) .ended :=
        hout.module_step nofun (by rw [hprocess]; rfl) (Emits.refl _) rfl rfl
      exact hstays _ _ _ hexit rfl rfl rfl
  | send hhost | reply hhost =>
      have hnone := hout.host_pending
      rw [hhost] at hnone
      cases hnone
  | brokenPipe hpending => exact absurd hout.host_pending hpending
  | ready hhost _ hpipe =>
      exact hstays _ _ _ (hout.ready (by rw [hhost]; rfl) hpipe _ _) rfl rfl rfl
  | hangup hhost | timeout hhost | exhausted hhost | waited hhost | next hhost =>
      exact hidles _ (by rw [hhost]; rfl) rfl
  | refill _ hahead hpipe => exact hstays _ _ _ (hout.refill hahead hpipe) rfl rfl rfl
  | wait hhost hahead hcall => exact hstays _ _ _ (hout.wait hhost hahead hcall) rfl rfl rfl
  | executeCallback hhost hahead hcall =>
      exact hout.handle hhost hahead hcall hs.state hs.returnBuffer hs.handled
  | noCall hhost hahead hpipe hclosed | partOfCall hhost _ hahead hpipe hclosed =>
      -- a module that has ended has written all of its calls
      refine absurd ?_ (hout.rest_ne_nil hhost)
      rw [hahead, hpipe]
      cases hprocess : s.process <;> first
        | rfl
        | (rw [hprocess] at hclosed; cases hclosed)

/-- **What a step does, the computation does**, in any number of steps. -/
theorem Follows.step (hs : Follows M callbackList s d) (h : Step M callbackList capacity s s') :
    ∃ d', Computes M callbackList d d' ∧ Follows M callbackList s' d' := by
  rcases hs.place with ⟨habort, hfails⟩ | ⟨got, k, reply, hin⟩ | ⟨calls, q, hout⟩
  · exact ⟨d, Relation.ReflTransGen.refl, hs.aborted_step habort hfails h⟩
  · exact ⟨d, Relation.ReflTransGen.refl, hs.incoming_step hin h⟩
  · exact hs.outgoing_step hout h

/-- **The processes compute what the module computes**, in every run. -/
theorem Reach.follows {argument : Reply} {state : S}
    (h : Reach M callbackList capacity argument state s) :
    ∃ d, Computes M callbackList (.start M argument state) d ∧ Follows M callbackList s d := by
  induction h with
  | start => exact ⟨_, Relation.ReflTransGen.refl, follows_start⟩
  | step _ hstep ih =>
      obtain ⟨d, hcomputes, hfollows⟩ := ih
      obtain ⟨d', hcomputes', hfollows'⟩ := hfollows.step hstep
      exact ⟨d', hcomputes.trans hcomputes', hfollows'⟩

end DLedger.Dfi
