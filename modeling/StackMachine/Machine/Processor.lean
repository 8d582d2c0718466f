import StackMachine.Machine.Run

/-!
# StackMachine.Machine.Processor

A processor keeps its channels from one run to the next, and nothing else.

* `Processor.execute`: one run, from its first byte until it ends, and a flush.
* `Execution`: its verdict, what it printed, and the processor after it.
-/

namespace StackMachine

structure Processor where
  input : Input
  output : Output

/-- What a run leaves. `log` is what the visitor made of the events. -/
structure Execution (α : Type) where
  verdict : Verdict
  printed : Array UInt8
  processor : Processor
  log : α

def Outcome.verdict? : Outcome → Option Verdict
  | running => none
  | halted => some (.ok ())
  | failed f => some (.error f)

namespace Processor

/-- Runs code for at most `limit` steps; none if it does not end by then. Every step's events go to
the visitor, and at the end the event of the end. A flush that fails makes a good run fail. -/
def execute {α : Type} (p : Processor) (visit : α → Event → α) (code : Code) (limit : Nat)
    (a : α) : Option (Execution α) :=
  let ended := walk code (fun a made => made.events.foldl visit a) limit
    (.start p.input p.output) a
  let s := ended.2.1
  ended.1.verdict?.map fun verdict =>
    ⟨verdict.andAlso s.store.output.flush, s.store.output.since p.output,
      ⟨s.store.input, s.store.output⟩,
      visit ended.2.2 (.finished s.ip s.store.data.length s.calls.length verdict)⟩

end Processor
end StackMachine
