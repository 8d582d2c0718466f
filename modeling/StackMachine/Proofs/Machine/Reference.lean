import StackMachine.Proofs.Assembly.Layout
import StackMachine.Machine.Step

/-!
# StackMachine.Proofs.Machine.Reference

A machine that runs the statements of a program as they were written, without any bytes.

* `Reference.State`: control is the index of the next instruction, labels not counted.
* `Reference.target?`: what a label stands for.
* `Reference.step`: one instruction, described by what it finds on the data stack.
* `Reference.run`: at most so many steps.

A taken jump behind the last instruction fails at the jump. Running on to that place fails one step
later.
-/

namespace StackMachine
namespace Reference

/-- `index` is the number of the next instruction, and `calls` holds the numbers of those that the
open calls go on with, the latest first. -/
structure State where
  index : Nat
  calls : List Nat
  store : Store

namespace State

def start (input : Input) (output : Output) : State := ⟨0, [], .fresh input output⟩

def next (s : State) (store : Store) : Outcome × State :=
  (.running, ⟨s.index + 1, s.calls, store⟩)

def fail (s : State) (f : Fault) : Outcome × State := (.failed f, s)

end State

variable (p : List Statement)

/-- The number of the instruction that a label stands before, if it stands before any. -/
def target? (name : String) : Option Nat :=
  (Statement.index? name p).filter fun k => k < (Statement.instrs p).length

def State.jump (s : State) (name : String) (calls : List Nat) : Outcome × State :=
  match target? p name with
  | some k => (.running, ⟨k, calls, s.store⟩)
  | none => s.fail .invalidInstructionPointer

/-- Reads a word of the input; what is no number, or missing, counts as zero. -/
def State.read (s : State) : Outcome × State :=
  let store := { s.store with input := s.store.input.next.2 }
  match s.store.input.next.1 with
  | .number w => s.next (store.push w)
  | .notNumber _ => s.next (store.push .zero)
  | .exhausted => s.next (store.push .zero)
  | .failed e => (.failed (.io e), { s with store := store })

def State.print (s : State) (w : Word) (rest : List Word) : Outcome × State :=
  let store := { s.store with data := rest, output := (s.store.output.write w.line).2 }
  match (s.store.output.write w.line).1 with
  | none => s.next store
  | some e => (.failed (.io e), { s with store := store })

def State.load (s : State) (a : Int) : Outcome × State :=
  match s.store.ram.load a with
  | .ok w => s.next (s.store.push w)
  | .error f => s.fail f

def State.save (s : State) (a : Int) (w : Word) (rest : List Word) : Outcome × State :=
  match s.store.ram.store a w with
  | .ok m => s.next { s.store with data := rest, ram := m }
  | .error f => s.fail f

/-- What an instruction does. It fails for want of values where the data stack has none of the
shapes listed for it. -/
def State.execute (s : State) (i : Instr Label) : Outcome × State :=
  match i, s.store.data with
  | .plain .input, _ => s.read
  | .plain .output, w :: rest => s.print w rest
  | .plain (.arith op), r :: l :: rest => s.next { s.store with data := op.apply l r :: rest }
  | .plain (.func op), w :: rest => s.next { s.store with data := op.apply w :: rest }
  | .plain .ret, _ =>
    match s.calls with
    | [] => s.fail .callStackUnderflow
    | k :: ks => (.running, ⟨k, ks, s.store⟩)
  | .plain .halt, _ => (.halted, s)
  | .plain .drop, _ :: rest => s.next { s.store with data := rest }
  | .imm w, _ => s.next (s.store.push w)
  | .reg .push r, _ => s.next (s.store.push (s.store.regs.get r))
  | .reg .pop r, w :: rest => s.next { s.store with data := rest, regs := s.store.regs.set r w }
  | .held .push r, _ => s.load (s.store.regs.get r).toNat
  | .held .pop r, w :: rest => s.save (s.store.regs.get r).toNat w rest
  | .fixed .push a, _ => s.load a.toInt
  | .fixed .pop a, w :: rest => s.save a.toInt w rest
  | .jump .always l, _ => s.jump p l.name s.calls
  | .jump .call l, _ => s.jump p l.name ((s.index + 1) :: s.calls)
  | .jump (.when c) t, r :: l :: _ =>
    if c.holds l r then s.jump p t.name s.calls else s.next s.store
  | _, _ => s.fail .dataStackUnderflow

/-- One step. Behind the last instruction there is nothing to execute. -/
def step (s : State) : Outcome × State :=
  match (Statement.instrs p)[s.index]? with
  | none => s.fail .invalidInstructionPointer
  | some i => s.execute p i

def run : Nat → State → Outcome × State
  | 0, s => (.running, s)
  | n + 1, s =>
    match step p s with
    | (.running, t) => run n t
    | ended => ended

end Reference
end StackMachine
