import StackMachine.Machine.Step

/-!
# StackMachine.Machine.Run

Runs: steps one after another.

* `walk`: at most so many steps, with a visitor told of each.
* `run`: the same without a visitor.
* `Snapshot`, `trace`: the states after each step, and what each step printed.

A walk that is cut off is `running`; more steps never change an end that was reached.
-/

namespace StackMachine

/-- Makes at most `limit` steps from `s`. The visitor sees every step made, the last one too. -/
def walk {α : Type} (code : Code) (visit : α → Step → α) : Nat → State → α → Outcome × State × α
  | 0, s, a => (.running, s, a)
  | limit + 1, s, a =>
    let made := step code s
    match made.outcome with
    | .running => walk code visit limit made.state (visit a made)
    | .halted => (.halted, made.state, visit a made)
    | .failed f => (.failed f, made.state, visit a made)

def run (code : Code) (limit : Nat) (s : State) : Outcome × State :=
  let ended := walk code (fun _ _ => ()) limit s ()
  (ended.1, ended.2.1)

structure Snapshot where
  state : State
  printed : Array UInt8

/-- What was printed between two outputs, the first of which came before the other. -/
def Output.since (later earlier : Output) : Array UInt8 :=
  later.written.extract earlier.written.size later.written.size

def trace (code : Code) (limit : Nat) (s : State) : Array Snapshot × Outcome × State :=
  let visit (seen : Array Snapshot × Output) (made : Step) : Array Snapshot × Output :=
    let now := made.state.store.output
    (seen.1.push ⟨made.state, now.since seen.2⟩, now)
  let ended := walk code visit limit s (#[], s.store.output)
  (ended.2.2.1, ended.1, ended.2.1)

/-- A visitor has no influence on the walk. -/
theorem walk_visit {α β : Type} (code : Code) (visit : α → Step → α) (other : β → Step → β)
    (limit : Nat) (s : State) (a : α) (b : β) :
    (walk code visit limit s a).1 = (walk code other limit s b).1 ∧
      (walk code visit limit s a).2.1 = (walk code other limit s b).2.1 := by
  induction limit generalizing s a b with
  | zero => exact ⟨rfl, rfl⟩
  | succ n ih =>
    simp only [walk]
    cases (step code s).outcome with
    | running => exact ih _ _ _
    | halted => exact ⟨rfl, rfl⟩
    | failed f => exact ⟨rfl, rfl⟩

end StackMachine
