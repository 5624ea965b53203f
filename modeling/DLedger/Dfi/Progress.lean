import DLedger.Dfi.Transit
import DLedger.Lib.Fair
import Mathlib.Data.Prod.Lex

set_option autoImplicit false

/-! # The host gets on

The rounds of the host are counted, each step of the host leaves it less to do, and where it waits
for the module, the module is in the middle of a read or of a write.
-/

namespace DLedger.Dfi

open Framing

variable {G S : Type} {M : Module G} {callbackList : CallbackList S} {capacity : Nat}
  {s s' : System G S} {argument : Reply} {state : S}

/-! ## Rounds -/

/-- How many calls the host can have read by now. -/
def HostState.maxHandled : HostState → Nat
  | sending _ => 0
  | polling round => round
  | receiving round _ _ => round
  | replying round _ _ => round + 1
  | checking round => round + 1
  | stopped _ => maxRounds
  | aborted => maxRounds

theorem HostState.maxHandled_behind {round : Nat} (hround : round < maxRounds) (hup : Bool) :
    round + 1 ≤ (behind round hup).maxHandled ∧ (behind round hup).maxHandled ≤ maxRounds := by
  cases hup
  · exact ⟨le_refl _, hround⟩
  · exact ⟨hround, le_refl _⟩

/-- The rounds are counted: one call in each at most. -/
structure Counted (s : System G S) : Prop where
  handled : s.handled.length ≤ s.host.maxHandled
  rounds : s.host.maxHandled ≤ maxRounds
  reading : ∀ round hup got, s.host = .receiving round hup got → round < maxRounds

theorem Counted.of_host (hs : Counted s) {t : System G S} (hhandled : t.handled = s.handled)
    (hcalls : s.host.maxHandled ≤ t.host.maxHandled) (hrounds : t.host.maxHandled ≤ maxRounds)
    (hreading : ∀ round hup got, t.host = .receiving round hup got → round < maxRounds) :
    Counted t :=
  ⟨by rw [hhandled]; exact hs.handled.trans hcalls, hrounds, hreading⟩

theorem Counted.handle (hs : Counted s) {round : Nat} {hup : Bool} {got rest : List UInt8}
    {call : Request} (hhost : s.host = .receiving round hup got) :
    Counted (System.handle callbackList round hup call { s with ahead := rest }) := by
  have hround := hs.reading round hup got hhost
  have hhandled := hs.handled
  rw [hhost] at hhandled
  have hlength : s.handled.length ≤ round := hhandled
  obtain ⟨hlow, hhigh⟩ := HostState.maxHandled_behind hround hup
  unfold System.handle
  simp only
  rcases executeCallback callbackList call (s.state, s.returnBuffer) with
    _ | ⟨⟨state', returnBuffer'⟩, _ | reply⟩
  · exact ⟨hlength.trans hround.le, le_refl _, nofun⟩
  · refine ⟨(Nat.succ_le_succ hlength).trans hlow, hhigh, fun _ _ _ hreading => ?_⟩
    cases hup <;> cases hreading
  · exact ⟨Nat.succ_le_succ hlength, hround, nofun⟩

theorem Counted.step (hs : Counted s) (h : Step M callbackList capacity s s') : Counted s' := by
  cases h with
  | read | compute | callHost | returnToHost | write | close | exit | refill =>
      exact hs.of_host rfl (le_refl _) hs.rounds hs.reading
  | @send rest b hhost =>
      refine hs.of_host rfl ?_ ?_ ?_
      · rw [hhost]
        exact Nat.zero_le _
      · unfold HostState.send
        split_ifs
        · exact Nat.zero_le _
        · exact Nat.zero_le _
      · unfold HostState.send
        split_ifs
        · exact nofun
        · exact nofun
  | ready hhost hround =>
      refine hs.of_host rfl (by rw [hhost]; exact le_refl _) hround.le fun _ _ _ hreading => ?_
      cases hreading
      exact hround
  | hangup hhost hround =>
      exact hs.of_host rfl (by rw [hhost]; exact hround.le) (le_refl _) nofun
  | timeout hhost hround =>
      exact hs.of_host rfl (by rw [hhost]; exact Nat.le_succ _) hround nofun
  | exhausted =>
      exact hs.of_host rfl hs.rounds (le_refl _) nofun
  | @wait round hup got rest b hhost =>
      refine hs.of_host rfl (by rw [hhost]; exact le_refl _)
        (hs.reading round hup got hhost).le fun _ _ _ hreading => ?_
      cases hreading
      exact hs.reading round hup got hhost
  | executeCallback hhost => exact hs.handle hhost
  | @noCall round hup hhost =>
      obtain ⟨hlow, hhigh⟩ := HostState.maxHandled_behind (hs.reading round hup [] hhost) hup
      refine hs.of_host rfl (by rw [hhost]; exact (Nat.le_succ _).trans hlow) hhigh
        fun _ _ _ hreading => ?_
      cases hup <;> cases hreading
  | partOfCall | brokenPipe => exact hs.of_host rfl hs.rounds (le_refl _) nofun
  | @reply round hup rest b hhost =>
      have hrounds := hs.rounds
      rw [hhost] at hrounds
      obtain ⟨hlow, hhigh⟩ := HostState.maxHandled_behind hrounds hup
      refine hs.of_host rfl ?_ ?_ ?_
      · rw [hhost]
        unfold HostState.reply
        split_ifs
        · exact hlow
        · exact le_refl _
      · unfold HostState.reply
        split_ifs
        · exact hhigh
        · exact hrounds
      · unfold HostState.reply
        intro _ _ _ hreading
        split_ifs at hreading
        · cases hup <;> cases hreading
  | waited => exact hs.of_host rfl hs.rounds (le_refl _) nofun
  | next hhost =>
      have hrounds := hs.rounds
      rw [hhost] at hrounds
      exact hs.of_host rfl (by rw [hhost]; exact le_refl _) hrounds nofun

theorem Reach.counted (h : Reach M callbackList capacity argument state s) : Counted s := by
  induction h with
  | start => exact ⟨le_refl _, Nat.zero_le _, nofun⟩
  | step _ hstep ih => exact ih.step hstep

/-- No more bytes are in a pipe than it holds. -/
theorem Reach.toModule_le (h : Reach M callbackList capacity argument state s) :
    s.toModule.length ≤ capacity := by
  induction h with
  | start => exact Nat.zero_le _
  | step _ hstep ih =>
      cases hstep with
      | read _ hpipe =>
          rw [hpipe] at ih
          exact Nat.le_of_succ_le ih
      | send _ _ hpipe | reply _ _ hpipe =>
          rw [List.length_append]
          exact hpipe
      | executeCallback =>
          unfold System.handle
          split <;> exact ih
      | _ => exact ih

/-! ## Where the other process is -/

/-- All the bytes on their way to the host, from the first one of the call that it reads. -/
def System.stream (s : System G S) : List UInt8 :=
  s.host.got ++ (s.ahead ++ (s.toHost ++ s.process.pending))

/-- Where the host writes, the module reads. -/
theorem Reach.of_writing (h : Reach M callbackList capacity argument state s)
    {pending : List UInt8}
    (hhost : s.host = .sending pending ∨ ∃ round hup, s.host = .replying round hup pending) :
    pending ≠ [] ∧ ∃ got k, s.process = .receiving got k := by
  obtain ⟨d, _, hfollows⟩ := h.follows
  rcases hfollows.place with ⟨habort, _⟩ | ⟨got, k, reply, hin⟩ | ⟨calls, q, hout⟩
  · rw [habort] at hhost
    rcases hhost with hhost | ⟨_, _, hhost⟩ <;> cases hhost
  · refine ⟨?_, got, k, hin.process⟩
    have hidle := hin.host
    rcases hhost with hhost | ⟨_, _, hhost⟩
    · rw [hhost] at hidle
      exact hidle.resolve_left nofun
    · rw [hhost] at hidle
      exact hidle.resolve_left nofun
  · have hidle := hout.host
    rcases hhost with hhost | ⟨_, _, hhost⟩
    · rw [hhost] at hidle
      rcases hidle with hidle | ⟨_, _, _, hhost, _⟩
      · cases hidle
      · cases hhost
    · rw [hhost] at hidle
      rcases hidle with hidle | ⟨_, _, _, hhost, _⟩
      · cases hidle
      · cases hhost

/-- Where the host reads, the module has begun to write all of the call. -/
theorem Reach.of_reading (h : Reach M callbackList capacity argument state s) {round : Nat}
    {hup : Bool} {got : List UInt8} (hhost : s.host = .receiving round hup got) :
    ∃ call more, requestCode.decode got = none ∧ s.stream = requestCode.encode call ++ more := by
  obtain ⟨d, _, hfollows⟩ := h.follows
  rcases hfollows.place with ⟨habort, _⟩ | ⟨_, _, _, hin⟩ | ⟨calls, q, hout⟩
  · rw [hhost] at habort
    cases habort
  · have hidle := hin.host
    rw [hhost] at hidle
    rcases hidle with hidle | hpending
    · cases hidle
    · exact absurd rfl hpending
  · obtain ⟨call, calls', _, hdecode, hstream⟩ := hout.first_call hhost
    refine ⟨call, requestCode.encodeAll calls', hdecode, ?_⟩
    rw [← hstream, System.stream, hhost]
    rfl

/-- Something of the call is still to be read. -/
theorem Reach.reading_ne_nil (h : Reach M callbackList capacity argument state s) {round : Nat}
    {hup : Bool} {got : List UInt8} (hhost : s.host = .receiving round hup got) :
    s.ahead ++ (s.toHost ++ s.process.pending) ≠ [] := by
  obtain ⟨call, more, hdecode, hstream⟩ := h.of_reading hhost
  rw [System.stream, hhost] at hstream
  exact PrefixCode.rest_ne_nil hstream hdecode

/-! ## Moves -/

/-- The host has done something. -/
def HostMoves (s s' : System G S) : Prop := s'.host ≠ s.host ∨ s'.ahead ≠ s.ahead

/-- The module has done something that shows. -/
def ModuleMoves (s s' : System G S) : Prop := s'.process ≠ s.process

theorem HostMoves.of_host {host host' : HostState} (h : s.host = host) (h' : s'.host = host')
    (hne : host' ≠ host) : HostMoves s s' := by
  left
  rw [h, h']
  exact hne

namespace HostState

theorem send_ne (b : UInt8) (rest : List UInt8) : send rest ≠ sending (b :: rest) := by
  unfold send
  split_ifs
  · exact nofun
  · intro heq
    cases heq

theorem behind_ne_receiving (round : Nat) (hup : Bool) (round' : Nat) (hup' : Bool)
    (got : List UInt8) : behind round hup ≠ receiving round' hup' got := by
  cases hup <;> exact nofun

theorem reply_ne (round : Nat) (hup : Bool) (b : UInt8) (rest : List UInt8) :
    reply round hup rest ≠ replying round hup (b :: rest) := by
  unfold reply
  split_ifs
  · cases hup <;> exact nofun
  · intro heq
    cases heq

end HostState

theorem System.handle_host_ne (s : System G S) (round round' : Nat) (hup hup' : Bool)
    (call : Request) (got : List UInt8) :
    (System.handle callbackList round hup call s).host ≠ .receiving round' hup' got := by
  unfold System.handle
  split
  · exact nofun
  · exact HostState.behind_ne_receiving _ _ _ _ _
  · exact nofun

theorem ModuleState.read_pending (got : List UInt8) (k : List UInt8 → G) :
    (ModuleState.read got k).pending = [] := by
  unfold ModuleState.read
  split <;> rfl

/-- What a step of the module leaves as it is for the host: the host takes no byte, and the way
to the host gets longer only. -/
structure Beside (s s' : System G S) : Prop where
  host : s'.host = s.host
  ahead : s'.ahead = s.ahead
  toModule : s'.toModule.length ≤ s.toModule.length
  toHost : s.toHost ≠ [] → s'.toHost ≠ []
  stream : ∃ more, s'.stream = s.stream ++ more

/-- **A step is one of the host, or it is beside the host.** -/
theorem Step.beside (h : Step M callbackList capacity s s') : HostMoves s s' ∨ Beside s s' := by
  cases h with
  | read hprocess hpipe =>
      refine Or.inr ⟨rfl, rfl, ?_, id, [], ?_⟩
      · rw [hpipe]
        exact Nat.le_succ _
      · have hpending : s.process.pending = [] := by rw [hprocess]; rfl
        simp only [System.stream, ModuleState.read_pending, hpending, List.append_nil]
  | compute hprocess | close hprocess | exit hprocess =>
      refine Or.inr ⟨rfl, rfl, le_refl _, id, [], ?_⟩
      simp only [System.stream, hprocess, ModuleState.pending, List.append_nil]
  | @callHost g call k hprocess =>
      refine Or.inr ⟨rfl, rfl, le_refl _, id, call.encode, ?_⟩
      simp only [System.stream, hprocess, ModuleState.pending, List.append_nil, List.append_assoc]
  | @returnToHost g g' argument hprocess =>
      refine Or.inr ⟨rfl, rfl, le_refl _, id, (doneRequest argument).encode, ?_⟩
      simp only [System.stream, hprocess, ModuleState.pending, List.append_nil, List.append_assoc]
  | @write rest b after hprocess =>
      refine Or.inr ⟨rfl, rfl, le_refl _, fun _ => by simp, [], ?_⟩
      have hpending : s.process.pending = b :: rest := by rw [hprocess]; rfl
      simp only [System.stream, ModuleState.write_pending, hpending, List.append_nil,
        List.append_assoc]
      rfl
  | @send rest b hhost => exact Or.inl (.of_host hhost rfl (HostState.send_ne b rest))
  | @reply round hup rest b hhost =>
      exact Or.inl (.of_host hhost rfl (HostState.reply_ne round hup b rest))
  | executeCallback hhost =>
      exact Or.inl (.of_host hhost rfl (System.handle_host_ne _ _ _ _ _ _ _))
  | noCall hhost =>
      exact Or.inl (.of_host hhost rfl (HostState.behind_ne_receiving _ _ _ _ _))
  | ready hhost | hangup hhost | timeout hhost | exhausted hhost | waited hhost | next hhost
  | partOfCall hhost => exact Or.inl (.of_host hhost rfl nofun)
  | wait hhost => exact Or.inl (.of_host hhost rfl (by simp))
  | refill _ hahead _ hchunk =>
      left; right
      rw [hahead]
      exact hchunk
  | brokenPipe hpending =>
      left; left
      intro heq
      rw [← heq] at hpending
      exact hpending rfl

/-! ## What is left to do -/

/-- The rounds that are left, and how far this one is. -/
def HostState.rank : HostState → Nat
  | sending _ => 4 * maxRounds + 4
  | polling round => 4 * (maxRounds - round) + 3
  | receiving round _ _ => 4 * (maxRounds - round) + 2
  | replying round _ _ => 4 * (maxRounds - round) + 1
  | checking round => 4 * (maxRounds - round)
  | stopped _ => 0
  | aborted => 0

/-- The bytes that the host is to write or to read before it gets further; an empty buffer costs
one more step. -/
def System.left (s : System G S) : Nat :=
  match s.host with
  | .sending pending => pending.length
  | .replying _ _ pending => pending.length
  | .receiving _ _ got =>
      match requestCode.decode s.stream with
      | none => 0
      | some call => 2 * ((requestCode.encode call).length - got.length)
          + if s.ahead = [] then 1 else 0
  | _ => 0

def System.work (s : System G S) : Nat ×ₗ Nat := toLex (s.host.rank, s.left)

theorem System.work_lt_of_rank (h : s'.host.rank < s.host.rank) : s'.work < s.work :=
  Prod.Lex.toLex_lt_toLex.2 (Or.inl h)

theorem System.work_lt_of_left (h : s'.host.rank = s.host.rank) (hleft : s'.left < s.left) :
    s'.work < s.work :=
  Prod.Lex.toLex_lt_toLex.2 (Or.inr ⟨h, hleft⟩)

theorem System.left_of_reading {round : Nat} {hup : Bool} {got more : List UInt8} {call : Request}
    (hhost : s.host = .receiving round hup got)
    (hstream : s.stream = requestCode.encode call ++ more) :
    s.left = 2 * ((requestCode.encode call).length - got.length)
      + if s.ahead = [] then 1 else 0 := by
  have hdecode : requestCode.decode s.stream = some call := by
    rw [hstream]
    exact requestCode.decode_of_prefix (List.prefix_append _ _)
  simp only [System.left, hhost, hdecode]

/-- A step beside the host does nothing of its work and makes no more of it. -/
theorem Beside.work_eq (hs : Beside s s') (h : Reach M callbackList capacity argument state s) :
    s'.work = s.work := by
  have hleft : s'.left = s.left := by
    cases hhost : s.host with
    | receiving round hup got =>
        obtain ⟨call, more, _, hstream⟩ := h.of_reading hhost
        obtain ⟨more', hmore⟩ := hs.stream
        rw [hstream, List.append_assoc] at hmore
        rw [System.left_of_reading hhost hstream,
          System.left_of_reading (hs.host.trans hhost) hmore, hs.ahead]
    | sending | polling | replying | checking | stopped | aborted =>
        simp only [System.left, hs.host, hhost]
  simp only [System.work, hs.host, hleft]

theorem HostState.rank_behind_le (round : Nat) (hup : Bool) :
    (behind round hup).rank ≤ 4 * (maxRounds - round) := by
  cases hup
  · exact le_refl _
  · exact Nat.zero_le _

theorem HostState.rank_pos_of_pending {h : HostState} (hpending : h.pending ≠ []) : 0 < h.rank := by
  cases h <;> first
    | exact Nat.succ_pos _
    | exact absurd rfl hpending

theorem System.rank_handle_le (s : System G S) (round : Nat) (hup : Bool) (call : Request) :
    (System.handle callbackList round hup call s).host.rank ≤ 4 * (maxRounds - round) + 1 := by
  unfold System.handle
  split
  · exact Nat.zero_le _
  · exact (HostState.rank_behind_le round hup).trans (Nat.le_succ _)
  · exact le_refl _

/-- A call that is not complete is longer than what has been read of it. -/
theorem Reach.got_lt (h : Reach M callbackList capacity argument state s) {round : Nat}
    {hup : Bool} {got : List UInt8} (hhost : s.host = .receiving round hup got) :
    ∃ call more, s.stream = requestCode.encode call ++ more ∧
      got.length < (requestCode.encode call).length := by
  obtain ⟨call, more, hdecode, hstream⟩ := h.of_reading hhost
  refine ⟨call, more, hstream, ?_⟩
  by_contra hle
  have hgot : got <+: s.stream := by
    rw [System.stream, hhost]
    exact List.prefix_append _ _
  rw [hstream] at hgot
  have hprefix : requestCode.encode call <+: got :=
    List.prefix_of_prefix_length_le (List.prefix_append _ _) hgot (Nat.le_of_not_lt hle)
  rw [requestCode.decode_of_prefix hprefix] at hdecode
  cases hdecode

/-- **Every move of the host leaves it less to do.** -/
theorem Reach.work_lt (h : Reach M callbackList capacity argument state s)
    (hs : Step M callbackList capacity s s') (hmoves : HostMoves s s') : s'.work < s.work := by
  cases hs with
  | read | compute | callHost | returnToHost | write | close | exit =>
      rcases hmoves with hne | hne <;> exact absurd rfl hne
  | @send rest b hhost =>
      by_cases hrest : rest = []
      · refine System.work_lt_of_rank ?_
        rw [hhost]
        simp only [HostState.send, if_pos hrest, HostState.rank]
        omega
      · refine System.work_lt_of_left ?_ ?_
        · rw [hhost]
          simp only [HostState.send, if_neg hrest, HostState.rank]
        · simp only [System.left, hhost, HostState.send, if_neg hrest, List.length_cons]
          exact Nat.lt_succ_self _
  | @reply round hup rest b hhost =>
      by_cases hrest : rest = []
      · refine System.work_lt_of_rank ?_
        rw [hhost]
        simp only [HostState.reply, if_pos hrest, HostState.rank]
        exact Nat.lt_succ_of_le (HostState.rank_behind_le round hup)
      · refine System.work_lt_of_left ?_ ?_
        · rw [hhost]
          simp only [HostState.reply, if_neg hrest, HostState.rank]
        · simp only [System.left, hhost, HostState.reply, if_neg hrest, List.length_cons]
          exact Nat.lt_succ_self _
  | ready hhost | hangup hhost | timeout hhost | exhausted hhost | partOfCall hhost =>
      refine System.work_lt_of_rank ?_
      rw [hhost]
      simp only [HostState.rank]
      omega
  | noCall hhost =>
      refine System.work_lt_of_rank ?_
      rw [hhost]
      exact Nat.lt_succ_of_le ((HostState.rank_behind_le _ _).trans (Nat.le_succ _))
  | executeCallback hhost =>
      refine System.work_lt_of_rank ?_
      rw [hhost]
      exact Nat.lt_succ_of_le (System.rank_handle_le _ _ _ _)
  | brokenPipe hpending => exact System.work_lt_of_rank (HostState.rank_pos_of_pending hpending)
  | waited hhost | next hhost =>
      -- no round comes behind the last one
      have hrounds := h.counted.rounds
      rw [hhost] at hrounds
      refine System.work_lt_of_rank ?_
      rw [hhost]
      simp only [HostState.maxHandled] at hrounds
      simp only [HostState.rank]
      omega
  | @refill round hup got chunk rest hhost hahead hpipe hchunk =>
      obtain ⟨call, more, hstream, _⟩ := h.got_lt hhost
      have hsame : System.stream { s with ahead := chunk, toHost := rest } = s.stream := by
        simp only [System.stream, hahead, hpipe, List.append_assoc, List.nil_append]
      refine System.work_lt_of_left rfl ?_
      rw [System.left_of_reading hhost hstream,
        System.left_of_reading (s := { s with ahead := chunk, toHost := rest }) hhost
          (hsame.trans hstream), if_neg hchunk, if_pos hahead]
      exact Nat.lt_succ_self _
  | @wait round hup got rest b hhost hahead hcall =>
      obtain ⟨call, more, hstream, hlt⟩ := h.got_lt hhost
      have hsame : System.stream
          { s with host := .receiving round hup (got ++ [b]), ahead := rest } = s.stream := by
        simp only [System.stream, hhost, hahead, HostState.got, List.append_assoc]
        rfl
      refine System.work_lt_of_left ?_ ?_
      · rw [hhost]
        rfl
      · have hne : s.ahead ≠ [] := by rw [hahead]; exact List.cons_ne_nil _ _
        rw [System.left_of_reading hhost hstream, System.left_of_reading rfl (hsame.trans hstream),
          if_neg hne, List.length_append, List.length_singleton]
        split_ifs <;> omega

/-! ## The host is served -/

/-- The host can move: there is room for a byte, or there is a byte. -/
def HostReady (capacity : Nat) (s : System G S) : Prop :=
  match s.host with
  | .sending _ => s.toModule.length < capacity
  | .replying _ _ _ => s.toModule.length < capacity
  | .receiving _ _ _ => s.ahead ≠ [] ∨ s.toHost ≠ []
  | .polling _ => True
  | .checking _ => True
  | .stopped _ => False
  | .aborted => False

/-- The loop is behind, or the process of the host is. -/
def HostState.hasEnded : HostState → Prop
  | stopped _ => True
  | aborted => True
  | _ => False

theorem Beside.ready (h : Beside s s') (hs : HostReady capacity s) : HostReady capacity s' := by
  unfold HostReady at *
  rw [h.host]
  cases hhost : s.host <;> simp only [hhost] at hs ⊢
  case sending | replying => exact lt_of_le_of_lt h.toModule hs
  case receiving =>
      rw [h.ahead]
      exact hs.imp_right h.toHost

theorem ModuleState.isClosed_of_receiving {process : ModuleState G} {got : List UInt8}
    {k : List UInt8 → G} (h : process = .receiving got k) : process.isClosed = false := by
  rw [h]
  rfl

/-- A host that is ready moves. -/
theorem Reach.host_able (h : Reach M callbackList capacity argument state s)
    (hready : HostReady capacity s) : Fair.Enabled (Step M callbackList capacity) HostMoves s := by
  unfold HostReady at hready
  cases hhost : s.host with
  | sending pending =>
      obtain ⟨hne, got, k, hprocess⟩ := h.of_writing (Or.inl hhost)
      obtain ⟨b, rest, rfl⟩ := List.exists_cons_of_ne_nil hne
      rw [hhost] at hready
      exact ⟨_, Step.send hhost (ModuleState.isClosed_of_receiving hprocess) hready,
        .of_host hhost rfl (HostState.send_ne b rest)⟩
  | replying round hup pending =>
      obtain ⟨hne, got, k, hprocess⟩ := h.of_writing (Or.inr ⟨round, hup, hhost⟩)
      obtain ⟨b, rest, rfl⟩ := List.exists_cons_of_ne_nil hne
      rw [hhost] at hready
      exact ⟨_, Step.reply hhost (ModuleState.isClosed_of_receiving hprocess) hready,
        .of_host hhost rfl (HostState.reply_ne round hup b rest)⟩
  | receiving round hup got =>
      rw [hhost] at hready
      cases hahead : s.ahead with
      | nil =>
          have hpipe : s.toHost ≠ [] := hready.resolve_left fun hne => hne hahead
          have hchunk : s.toHost.take bufferSize ≠ [] := by
            obtain ⟨b, rest, hcons⟩ := List.exists_cons_of_ne_nil hpipe
            rw [hcons]
            exact List.cons_ne_nil _ _
          refine ⟨_, Step.refill hhost hahead (List.take_append_drop bufferSize _).symm hchunk
            (List.length_take_le _ _), Or.inr ?_⟩
          rw [hahead]
          exact hchunk
      | cons b rest =>
          cases hcall : requestCode.decode (got ++ [b]) with
          | none => exact ⟨_, Step.wait hhost hahead hcall, .of_host hhost rfl (by simp)⟩
          | some call =>
              exact ⟨_, Step.executeCallback hhost hahead hcall,
                .of_host hhost rfl (System.handle_host_ne _ _ _ _ _ _ _)⟩
  | polling round =>
      by_cases hround : round < maxRounds
      · by_cases hpipe : s.toHost = []
        · cases hclosed : s.process.isClosed with
          | true => exact ⟨_, Step.hangup hhost hround hpipe hclosed, .of_host hhost rfl nofun⟩
          | false => exact ⟨_, Step.timeout hhost hround hpipe hclosed, .of_host hhost rfl nofun⟩
        · exact ⟨_, Step.ready hhost hround hpipe, .of_host hhost rfl nofun⟩
      · exact ⟨_, Step.exhausted hhost (Nat.le_of_not_lt hround), .of_host hhost rfl nofun⟩
  | checking round =>
      by_cases hexited : s.process = .exited
      · exact ⟨_, Step.waited hhost hexited, .of_host hhost rfl nofun⟩
      · exact ⟨_, Step.next hhost hexited, .of_host hhost rfl nofun⟩
  | stopped | aborted =>
      rw [hhost] at hready
      exact hready.elim

theorem ModuleState.read_ne (got : List UInt8) (b : UInt8) (k : List UInt8 → G) :
    ModuleState.read (got ++ [b]) k ≠ .receiving got k := by
  unfold ModuleState.read
  split
  · simp
  · exact nofun

theorem ModuleState.write_ne (b : UInt8) (rest : List UInt8) (after : After G) :
    ModuleState.write rest after ≠ .writing (b :: rest) after := by
  unfold ModuleState.write
  split_ifs
  · cases after <;> exact nofun
  · simp

/-- What a host waits for that can do nothing: the module takes a byte from a full pipe, or it puts
one into an empty pipe. -/
inductive Blocked (capacity : Nat) (s : System G S) : Prop where
  | full {pending got : List UInt8} {k : List UInt8 → G}
      (hhost : s.host = .sending pending ∨ ∃ round hup, s.host = .replying round hup pending)
      (hprocess : s.process = .receiving got k) (hpipe : capacity ≤ s.toModule.length)
  | empty {round : Nat} {hup : Bool} {got rest : List UInt8} {b : UInt8} {after : After G}
      (hhost : s.host = .receiving round hup got) (hahead : s.ahead = []) (hpipe : s.toHost = [])
      (hprocess : s.process = .writing (b :: rest) after)

theorem Reach.blocked (h : Reach M callbackList capacity argument state s)
    (hended : ¬ s.host.hasEnded) (hready : ¬ HostReady capacity s) : Blocked capacity s := by
  unfold HostReady at hready
  cases hhost : s.host with
  | sending pending =>
      rw [hhost] at hready
      obtain ⟨_, got, k, hprocess⟩ := h.of_writing (Or.inl hhost)
      exact Blocked.full (Or.inl hhost) hprocess (Nat.le_of_not_lt hready)
  | replying round hup pending =>
      rw [hhost] at hready
      obtain ⟨_, got, k, hprocess⟩ := h.of_writing (Or.inr ⟨round, hup, hhost⟩)
      exact Blocked.full (Or.inr ⟨round, hup, hhost⟩) hprocess (Nat.le_of_not_lt hready)
  | receiving round hup got =>
      rw [hhost] at hready
      obtain ⟨hahead, hpipe⟩ : s.ahead = [] ∧ s.toHost = [] := by
        simpa only [not_or, not_not] using hready
      have hrest := h.reading_ne_nil hhost
      rw [hahead, hpipe, List.nil_append, List.nil_append] at hrest
      cases hprocess : s.process with
      | writing pending after =>
          rw [hprocess] at hrest
          obtain ⟨b, rest, rfl⟩ := List.exists_cons_of_ne_nil hrest
          exact Blocked.empty hhost hahead hpipe hprocess
      | receiving | running | closed | exited =>
          rw [hprocess] at hrest
          exact absurd rfl hrest
  | polling | checking =>
      rw [hhost] at hready
      exact absurd trivial hready
  | stopped | aborted =>
      rw [hhost] at hended
      exact absurd trivial hended

/-- The module can do what the host waits for. -/
theorem Blocked.module_able (hcapacity : 0 < capacity) (h : Blocked capacity s) :
    Fair.Enabled (Step M callbackList capacity) ModuleMoves s := by
  cases h with
  | @full pending got k hhost hprocess hpipe =>
      obtain ⟨b, rest, htoModule⟩ := List.exists_cons_of_length_pos (hcapacity.trans_le hpipe)
      refine ⟨_, Step.read hprocess htoModule, ?_⟩
      unfold ModuleMoves
      rw [hprocess]
      exact ModuleState.read_ne got b k
  | @empty round hup got rest b after hhost hahead hpipe hprocess =>
      refine ⟨_, Step.write hprocess (by rw [hpipe]; exact hcapacity), ?_⟩
      unfold ModuleMoves
      rw [hprocess]
      exact ModuleState.write_ne b rest after

/-- There is no other step. -/
theorem Blocked.step_ready (h : Blocked capacity s) (hle : s.toModule.length ≤ capacity)
    (hs : Step M callbackList capacity s s') : HostReady capacity s' := by
  cases h with
  | full hhost hprocess hpipe =>
      cases hs with
      | read _ htoModule =>
          have hroom : s.toModule.tail.length < capacity := by
            rw [htoModule] at hle ⊢
            exact hle
          rw [htoModule] at hroom
          unfold HostReady
          rcases hhost with hhost | ⟨round, hup, hhost⟩
          · simp only [hhost]
            exact hroom
          · simp only [hhost]
            exact hroom
      | compute hprocess' | callHost hprocess' | returnToHost hprocess' | write hprocess'
      | close hprocess' | exit hprocess' =>
          rw [hprocess] at hprocess'
          cases hprocess'
      | send _ _ hpipe' | reply _ _ hpipe' => exact absurd hpipe' (Nat.not_lt_of_le hpipe)
      | brokenPipe _ hclosed =>
          rw [ModuleState.isClosed_of_receiving hprocess] at hclosed
          cases hclosed
      | ready hhost' | hangup hhost' | timeout hhost' | exhausted hhost' | refill hhost'
      | wait hhost' | executeCallback hhost' | noCall hhost' | partOfCall hhost' | waited hhost'
      | next hhost' =>
          rcases hhost with hhost | ⟨round, hup, hhost⟩ <;> cases hhost.symm.trans hhost'
  | empty hhost hahead hpipe hprocess =>
      cases hs with
      | write =>
          unfold HostReady
          simp only [hhost]
          exact Or.inr (by simp)
      | read hprocess' | compute hprocess' | callHost hprocess' | returnToHost hprocess'
      | close hprocess' | exit hprocess' => cases hprocess.symm.trans hprocess'
      | send hhost' | reply hhost' | ready hhost' | hangup hhost' | timeout hhost'
      | exhausted hhost' | waited hhost' | next hhost' => cases hhost.symm.trans hhost'
      | refill _ _ hpipe' hchunk =>
          rw [hpipe] at hpipe'
          exact absurd (List.append_eq_nil_iff.1 hpipe'.symm).1 hchunk
      | wait _ hahead' | executeCallback _ hahead' => cases hahead.symm.trans hahead'
      | noCall _ _ _ hclosed | partOfCall _ _ _ _ hclosed =>
          rw [hprocess] at hclosed
          cases hclosed
      | brokenPipe hpending =>
          rw [hhost] at hpending
          exact absurd rfl hpending

/-- Nothing happens behind the end of both processes. -/
theorem not_step_of_stopped {why : Stop} (hprocess : s.process = .exited)
    (hhost : s.host = .stopped why) : ¬ Step M callbackList capacity s s' := by
  intro hs
  cases hs with
  | read hprocess' | compute hprocess' | callHost hprocess' | returnToHost hprocess'
  | write hprocess' | close hprocess' | exit hprocess' => cases hprocess.symm.trans hprocess'
  | brokenPipe hpending =>
      rw [hhost] at hpending
      exact hpending rfl
  | send hhost' | ready hhost' | hangup hhost' | timeout hhost' | exhausted hhost' | refill hhost'
  | wait hhost' | executeCallback hhost' | noCall hhost' | partOfCall hhost' | reply hhost'
  | waited hhost' | next hhost' => cases hhost.symm.trans hhost'

/-- **The module serves the host.** -/
theorem serves (hcapacity : 0 < capacity) :
    Fair.Serves (Step M callbackList capacity) HostMoves ModuleMoves
      (Reach M callbackList capacity argument state) (fun s => s.host.hasEnded)
      (HostReady capacity) System.work where
  invariant := Reach.step
  work := by
    intro s s' h hs
    by_cases hmoves : HostMoves s s'
    · exact Or.inl (h.work_lt hs hmoves)
    · exact Or.inr ⟨hmoves, (hs.beside.resolve_left hmoves).work_eq h⟩
  able := Reach.host_able
  stays := by
    intro s s' _ hready hs hstays
    exact (hs.beside.resolve_left hstays).ready hready
  helps := by
    intro s h hended hready
    exact (h.blocked hended hready).module_able hcapacity
  serves := by
    intro s s' h hended hready hs
    exact (h.blocked hended hready).step_ready h.toModule_le hs
  worker_ne := by
    intro s hmoves
    rcases hmoves with hne | hne <;> exact hne rfl
  server_ne := fun hmoves => hmoves rfl

end DLedger.Dfi
