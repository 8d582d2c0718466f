import StackMachine.Isa.Opcode
import StackMachine.Log.Level
import StackMachine.Machine.Fault
import StackMachine.Word

/-!
# StackMachine.Log.Event

What the log tells.

* `Event`: the events, with `Event.level`, `Event.message` and `Event.fields`.
* `Event.visible`: the events that a limit lets through.
-/

namespace StackMachine

inductive Event where
  /-- A source text was collected; label definitions count as instructions here. -/
  | collected (instructions labels bytes : Nat)
  /-- An instruction with a known opcode is about to be executed. The data stack stands for its
  depth, which is counted only when the event is written. -/
  | step (ip : Nat) (op : Opcode) (data : List Word)
  /-- A word of the input stood for zero. -/
  | notNumber (word : List Char)
  /-- The missing word of an input at its end stood for zero. -/
  | exhausted
  /-- A run ended; the verdict is that before the output was flushed. -/
  | finished (ip dataDepth callDepth : Nat) (verdict : Verdict)

namespace Event

def level : Event → Level
  | collected _ _ _ => .debug
  | step _ _ _ => .trace
  | notNumber _ => .warn
  | exhausted => .warn
  | finished _ _ _ _ => .debug

def message : Event → String
  | collected _ _ _ => "collected program"
  | step _ _ _ => "step"
  | notNumber _ => "input is not a number"
  | exhausted => "input exhausted"
  | finished _ _ _ _ => "execution finished"

def fields : Event → List (String × String)
  | collected instructions labels bytes =>
    [("instructions", instructions.repr), ("labels", labels.repr), ("bytes", bytes.repr)]
  | step ip op data =>
    [("ip", ip.repr), ("op", op.mnemonic), ("depth", data.length.repr)]
  | notNumber word => [("token", String.ofList word)]
  | exhausted => []
  | finished ip dataDepth callDepth verdict =>
    [("ip", ip.repr), ("data_depth", dataDepth.repr), ("call_depth", callDepth.repr),
      ("result", verdict.describe)]

def visible (limit : Level) (events : List Event) : List Event :=
  events.filter fun e => limit.admits e.level

end Event
end StackMachine
