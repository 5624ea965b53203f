import DLedger.Lib.Framing
import Mathlib.Logic.Relation

set_option autoImplicit false

/-! # The function runner

`DynamicFunctionRunner::run_wasi_module` runs a module in a process of its own. The host writes the
argument to the module's standard input and then polls its standard output: a frame is a call of a
host function, which the host answers on the standard input, or, under the name `DONE`, the result.
The two processes take their steps in any order; a pipe holds the bytes that are written and not
yet read. What WebAssembly computes between its calls of the host is a parameter. The model ends
where the loop of the host ends: what a module that is still running does then is left out.
-/

namespace DLedger.Dfi

open Framing

/-! ## Calls and replies -/

def callbackNameSize : Nat := 4

/-- A call of the host: the name of the function, the length of the argument and the argument. -/
abbrev Request := Frame callbackNameSize

/-- A reply, or the argument of the module: a length and a block. -/
abbrev Reply := Frame 0

def requestCode : PrefixCode UInt8 Request := frameCode callbackNameSize

def replyCode : PrefixCode UInt8 Reply := frameCode 0

/-- `"DONE"`. -/
def doneName : List UInt8 := [68, 79, 78, 69]

/-- What `return_to_host` writes. -/
def doneRequest (argument : Reply) : Request :=
  ⟨doneName, argument.payload, rfl, argument.payload_length⟩

/-- A block with its length, which is narrowed to 32 bits. -/
def clip (result : List UInt8) : Reply where
  header := []
  payload := result.take (result.length % 2 ^ 32)
  header_length := rfl
  payload_length := by
    rw [List.length_take]
    omega

/-- `m_callbackList`. A function of the host may change the state of the host. -/
abbrev CallbackList (S : Type) := List UInt8 → Option (List UInt8 → S → S × List UInt8)

/-- `setCallback`; `none` where its assertion fails. -/
def setCallback {S : Type} (name : List UInt8) (func : List UInt8 → S → S × List UInt8)
    (callbackList : CallbackList S) : Option (CallbackList S) :=
  if name.length = callbackNameSize then
    some fun n => if n = name then some func else callbackList n
  else none

/-- What `executeCallback` does with a call that it has read: the new state of the host and the new
`return_buffer`, and the reply if there is one. It is `none` where an assertion fails, for `fread`
and `fwrite` return 0 for an empty block. A function that is not in the list gets no reply. -/
def executeCallback {S : Type} (callbackList : CallbackList S) (call : Request)
    (host : S × List UInt8) : Option ((S × List UInt8) × Option Reply) :=
  if call.payload = [] then none
  else if call.header = doneName then some ((host.1, call.payload), none)
  else
    match callbackList call.header with
    | none => some (host, none)
    | some func =>
        let (state, result) := func call.payload host.1
        if (clip result).payload = [] then none
        else some ((state, host.2), some (clip result))

/-! ## The module -/

/-- What a module does next. -/
inductive ModuleAct (G : Type) where
  | exit
  | compute (g : G)
  /-- `call_host`, which ends with `read_host_argument`. -/
  | callHost (call : Request) (k : List UInt8 → G)
  | returnToHost (argument : Reply) (g : G)

/-- A module begins with `read_host_argument`. -/
structure Module (G : Type) where
  start : List UInt8 → G
  next : G → ModuleAct G

/-- What comes behind `fflush(stdout)`. -/
inductive After (G : Type) where
  | await (k : List UInt8 → G)
  | resume (g : G)

/-- The process of the module. Its pipe is closed a moment before `waitpid` finds it. -/
inductive ModuleState (G : Type) where
  | receiving (got : List UInt8) (k : List UInt8 → G)
  | running (g : G)
  | writing (pending : List UInt8) (after : After G)
  | closed
  | exited

namespace ModuleState

variable {G : Type}

def isClosed : ModuleState G → Bool
  | closed => true
  | exited => true
  | _ => false

def after : After G → ModuleState G
  | .await k => receiving [] k
  | .resume g => running g

/-- The bytes that are still to be written. -/
def write (pending : List UInt8) (behind : After G) : ModuleState G :=
  if pending = [] then after behind else writing pending behind

/-- The bytes of a reply so far. -/
def read (got : List UInt8) (k : List UInt8 → G) : ModuleState G :=
  match replyCode.decode got with
  | none => receiving got k
  | some reply => running (k reply.payload)

end ModuleState

/-! ## The host -/

/-- Why the loop of `run_wasi_module` ended: `POLLHUP`, `waitpid`, or no round is left. -/
inductive Stop where
  | hangup
  | waited
  | exhausted
deriving DecidableEq

/-- Where the host is, with the number of rounds before this one; `hangup` says whether `poll` has
seen `POLLHUP` in this round. -/
inductive HostState where
  | sending (pending : List UInt8)
  | polling (round : Nat)
  | receiving (round : Nat) (hangup : Bool) (got : List UInt8)
  | replying (round : Nat) (hangup : Bool) (pending : List UInt8)
  | checking (round : Nat)
  | stopped (why : Stop)
  | aborted

namespace HostState

/-- The loop behind `executeCallback`. -/
def behind (round : Nat) (hangup : Bool) : HostState :=
  if hangup then stopped .hangup else checking round

def send (pending : List UInt8) : HostState :=
  if pending = [] then polling 0 else sending pending

def reply (round : Nat) (hangup : Bool) (pending : List UInt8) : HostState :=
  if pending = [] then behind round hangup else replying round hangup pending

/-- What the host is about to write. -/
def pending : HostState → List UInt8
  | sending pending => pending
  | replying _ _ pending => pending
  | _ => []

end HostState

/-- The two processes and the pipes between them. `ahead` is the buffer of `stdout_pipe`: what the
host has taken from the pipe and not yet read. -/
structure System (G S : Type) where
  process : ModuleState G
  host : HostState
  toModule : List UInt8
  toHost : List UInt8
  ahead : List UInt8
  state : S
  returnBuffer : List UInt8
  /-- The calls that the host has read, newest first: a history that nothing reads. -/
  handled : List Request

namespace System

variable {G S : Type}

/-- Just after `fork`, when the host is about to write the argument. -/
def start (M : Module G) (argument : Reply) (state : S) : System G S where
  process := .receiving [] M.start
  host := .sending argument.encode
  toModule := []
  toHost := []
  ahead := []
  state := state
  returnBuffer := []
  handled := []

/-- A call has been read. -/
def handle (callbackList : CallbackList S) (round : Nat) (hangup : Bool) (call : Request)
    (s : System G S) : System G S :=
  match executeCallback callbackList call (s.state, s.returnBuffer) with
  | none => { s with host := .aborted }
  | some ((state, returnBuffer), none) =>
      { s with
        host := .behind round hangup
        state := state
        returnBuffer := returnBuffer
        handled := call :: s.handled }
  | some ((state, returnBuffer), some reply) =>
      { s with
        host := .replying round hangup reply.encode
        state := state
        returnBuffer := returnBuffer
        handled := call :: s.handled }

end System

/-- The rounds of the loop. -/
def maxRounds : Nat := 200

/-- What `fread` takes from a pipe at once. A longer block is taken in parts. -/
def bufferSize : Nat := 4096

/-- A step of either process. A write takes one byte to a pipe that is not full; a read takes one
byte, but the host fills its buffer with any part of what is in the pipe. -/
inductive Step {G S : Type} (M : Module G) (callbackList : CallbackList S) (capacity : Nat) :
    System G S → System G S → Prop where
  | read {s : System G S} {got rest : List UInt8} {b : UInt8} {k : List UInt8 → G}
      (hprocess : s.process = .receiving got k) (hpipe : s.toModule = b :: rest) :
      Step M callbackList capacity s
        { s with process := .read (got ++ [b]) k, toModule := rest }
  | compute {s : System G S} {g g' : G} (hprocess : s.process = .running g)
      (hnext : M.next g = .compute g') :
      Step M callbackList capacity s { s with process := .running g' }
  | callHost {s : System G S} {g : G} {call : Request} {k : List UInt8 → G}
      (hprocess : s.process = .running g) (hnext : M.next g = .callHost call k) :
      Step M callbackList capacity s { s with process := .writing call.encode (.await k) }
  | returnToHost {s : System G S} {g g' : G} {argument : Reply}
      (hprocess : s.process = .running g) (hnext : M.next g = .returnToHost argument g') :
      Step M callbackList capacity s
        { s with process := .writing (doneRequest argument).encode (.resume g') }
  | write {s : System G S} {rest : List UInt8} {b : UInt8} {after : After G}
      (hprocess : s.process = .writing (b :: rest) after) (hpipe : s.toHost.length < capacity) :
      Step M callbackList capacity s
        { s with process := .write rest after, toHost := s.toHost ++ [b] }
  | close {s : System G S} {g : G} (hprocess : s.process = .running g) (hnext : M.next g = .exit) :
      Step M callbackList capacity s { s with process := .closed }
  | exit {s : System G S} (hprocess : s.process = .closed) :
      Step M callbackList capacity s { s with process := .exited }
  | send {s : System G S} {rest : List UInt8} {b : UInt8} (hhost : s.host = .sending (b :: rest))
      (hprocess : s.process.isClosed = false) (hpipe : s.toModule.length < capacity) :
      Step M callbackList capacity s
        { s with host := .send rest, toModule := s.toModule ++ [b] }
  /-- `POLLIN`, perhaps with `POLLHUP`. -/
  | ready {s : System G S} {round : Nat} (hhost : s.host = .polling round)
      (hround : round < maxRounds) (hpipe : s.toHost ≠ []) :
      Step M callbackList capacity s
        { s with host := .receiving round s.process.isClosed [] }
  | hangup {s : System G S} {round : Nat} (hhost : s.host = .polling round)
      (hround : round < maxRounds) (hpipe : s.toHost = []) (hprocess : s.process.isClosed = true) :
      Step M callbackList capacity s { s with host := .stopped .hangup }
  /-- `poll` returns 0 after its 10 ms. -/
  | timeout {s : System G S} {round : Nat} (hhost : s.host = .polling round)
      (hround : round < maxRounds) (hpipe : s.toHost = []) (hprocess : s.process.isClosed = false) :
      Step M callbackList capacity s { s with host := .checking round }
  /-- `kill` after the last round. -/
  | exhausted {s : System G S} {round : Nat} (hhost : s.host = .polling round)
      (hround : maxRounds ≤ round) :
      Step M callbackList capacity s { s with host := .stopped .exhausted }
  | refill {s : System G S} {round : Nat} {hup : Bool} {got chunk rest : List UInt8}
      (hhost : s.host = .receiving round hup got) (hahead : s.ahead = [])
      (hpipe : s.toHost = chunk ++ rest) (hchunk : chunk ≠ [])
      (hbuffer : chunk.length ≤ bufferSize) :
      Step M callbackList capacity s { s with ahead := chunk, toHost := rest }
  | wait {s : System G S} {round : Nat} {hup : Bool} {got rest : List UInt8} {b : UInt8}
      (hhost : s.host = .receiving round hup got) (hahead : s.ahead = b :: rest)
      (hcall : requestCode.decode (got ++ [b]) = none) :
      Step M callbackList capacity s
        { s with host := .receiving round hup (got ++ [b]), ahead := rest }
  | executeCallback {s : System G S} {round : Nat} {hup : Bool} {got rest : List UInt8}
      {b : UInt8} {call : Request} (hhost : s.host = .receiving round hup got)
      (hahead : s.ahead = b :: rest) (hcall : requestCode.decode (got ++ [b]) = some call) :
      Step M callbackList capacity s
        (System.handle callbackList round hup call { s with ahead := rest })
  /-- The end of the stream, in front of a call. -/
  | noCall {s : System G S} {round : Nat} {hup : Bool} (hhost : s.host = .receiving round hup [])
      (hahead : s.ahead = []) (hpipe : s.toHost = []) (hprocess : s.process.isClosed = true) :
      Step M callbackList capacity s { s with host := .behind round hup }
  /-- The end of the stream inside a call: an assertion fails. -/
  | partOfCall {s : System G S} {round : Nat} {hup : Bool} {got : List UInt8}
      (hhost : s.host = .receiving round hup got) (hgot : got ≠ []) (hahead : s.ahead = [])
      (hpipe : s.toHost = []) (hprocess : s.process.isClosed = true) :
      Step M callbackList capacity s { s with host := .aborted }
  | reply {s : System G S} {round : Nat} {hup : Bool} {rest : List UInt8} {b : UInt8}
      (hhost : s.host = .replying round hup (b :: rest)) (hprocess : s.process.isClosed = false)
      (hpipe : s.toModule.length < capacity) :
      Step M callbackList capacity s
        { s with host := .reply round hup rest, toModule := s.toModule ++ [b] }
  /-- `SIGPIPE` ends a process that writes to a closed pipe. -/
  | brokenPipe {s : System G S} (hhost : s.host.pending ≠ [])
      (hprocess : s.process.isClosed = true) :
      Step M callbackList capacity s { s with host := .aborted }
  | waited {s : System G S} {round : Nat} (hhost : s.host = .checking round)
      (hprocess : s.process = .exited) :
      Step M callbackList capacity s { s with host := .stopped .waited }
  | next {s : System G S} {round : Nat} (hhost : s.host = .checking round)
      (hprocess : s.process ≠ .exited) :
      Step M callbackList capacity s { s with host := .polling (round + 1) }

/-- The states of the runs on an argument that is not empty. -/
inductive Reach {G S : Type} (M : Module G) (callbackList : CallbackList S) (capacity : Nat)
    (argument : Reply) (state : S) : System G S → Prop where
  | start (hargument : argument.payload ≠ []) :
      Reach M callbackList capacity argument state (.start M argument state)
  | step {s s' : System G S} (h : Reach M callbackList capacity argument state s)
      (hs : Step M callbackList capacity s s') : Reach M callbackList capacity argument state s'

end DLedger.Dfi
