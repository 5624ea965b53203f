import DLedger.Dfi.Once
import DLedger.Dfi.Realize

set_option autoImplicit false

/-! # Two small modules

One is `c-test1`, with the host function and the argument that `dfi-test` gives it. The other one
makes its call behind its result.
-/

namespace DLedger.Dfi.Sample

/-- `"argument from host"`. -/
def argument : Reply where
  header := []
  payload := [97, 114, 103, 117, 109, 101, 110, 116, 32, 102, 114, 111, 109, 32, 104, 111, 115, 116]
  header_length := List.length_nil
  payload_length := by decide

/-- `"GETB"` on `"Argument from C WASM"`. -/
def getb : Request where
  header := [71, 69, 84, 66]
  payload := [65, 114, 103, 117, 109, 101, 110, 116, 32, 102, 114, 111, 109, 32, 67, 32, 87, 65, 83,
    77]
  header_length := rfl
  payload_length := by decide

/-- `"Hello from host!"`. -/
def hello : List UInt8 :=
  [72, 101, 108, 108, 111, 32, 102, 114, 111, 109, 32, 104, 111, 115, 116, 33]

/-- `"Return from C WASM"`. -/
def message : Reply where
  header := []
  payload := [82, 101, 116, 117, 114, 110, 32, 102, 114, 111, 109, 32, 67, 32, 87, 65, 83, 77]
  header_length := List.length_nil
  payload_length := by decide

def callbackList : CallbackList Unit :=
  fun n => if n = getb.header then some fun _ host => (host, hello) else none

example : setCallback getb.header (fun _ host => (host, hello)) (fun _ => none)
    = some callbackList := rfl

/-! ## A result behind a call -/

inductive CTest1 where
  | call
  | result
  | done

def cTest1 : Module CTest1 where
  start _ := .call
  next
    | .call => .callHost getb fun _ => .result
    | .result => .returnToHost message .done
    | .done => .exit

theorem cTest1_returnsOnce : cTest1.ReturnsOnce := by
  intro g argument g' calls p hnext h
  cases g with
  | call | done => cases hnext
  | result =>
      cases hnext
      cases h with
      | refl | exit => rfl
      | compute hnext | returnToHost hnext | callHost hnext => cases hnext

/-- In front of its result. -/
def cTest1Result : Direct CTest1 Unit := ⟨.at .result, (), [], [getb]⟩

def cTest1End : Direct CTest1 Unit := ⟨.ended, (), message.payload, [doneRequest message, getb]⟩

theorem computes_cTest1Result :
    Computes cTest1 callbackList (.start cTest1 argument ()) cTest1Result := by
  have hcall : executeCallback callbackList getb ((), [])
      = some (((), []), some (clip hello)) := rfl
  exact Relation.ReflTransGen.single (DirectStep.callHost (k := fun _ => CTest1.result) rfl hcall)

theorem computes_cTest1End :
    Computes cTest1 callbackList (.start cTest1 argument ()) cTest1End :=
  (computes_cTest1Result.tail (DirectStep.returnToHost rfl rfl)).tail (DirectStep.exit rfl)

/-- The host has stopped with `POLLHUP`, and `c-test1` has exited. -/
def cTest1Stopped : System CTest1 Unit :=
  { cTest1End.settled with process := .exited, host := .stopped .hangup }

theorem steps_cTest1Stopped :
    Steps cTest1 callbackList 1 (.start cTest1 argument ()) cTest1Stopped :=
  ((computes_cTest1End.realized Nat.one_pos (by decide)).tail
    (Step.hangup rfl (by decide) rfl rfl)).tail (Step.exit rfl)

theorem reach_cTest1Stopped :
    Reach cTest1 callbackList 1 argument () cTest1Stopped :=
  (Reach.start (by decide)).trans steps_cTest1Stopped

/-! ## A call behind a result -/

def lateCall : Module Bool where
  start _ := true
  next
    | true => .returnToHost message false
    | false => .callHost getb fun _ => true

end DLedger.Dfi.Sample
