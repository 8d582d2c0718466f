import StackMachine.Isa.Instr
import StackMachine.Log.Event
import StackMachine.Machine.Input
import StackMachine.Machine.Operation
import StackMachine.Machine.Output
import StackMachine.Machine.Ram
import StackMachine.Machine.Registers
import StackMachine.Decimal.Display

/-!
# StackMachine.Machine.Store

What an instruction does, apart from where control goes next.

* `Store`: registers, data stack, memory and channels.
* `Action`: what is asked of control afterwards.
* `Effect`: an action, the store after it, and the events on the way.
* `Instr.perform`: the effect of an instruction.

Control itself is not looked at, so the effect is the same whatever jump targets are.
-/

namespace StackMachine

/-- Everything an instruction can read or change besides control; the top of the stack is first. -/
structure Store where
  regs : Registers
  data : List Word
  ram : Ram
  input : Input
  output : Output

inductive Action (J : Type) where
  | next
  | jump (target : J)
  | call (target : J)
  | ret
  | halt
  | fault (f : Fault)

structure Effect (J : Type) where
  action : Action J
  store : Store
  events : List Event

namespace Store

def fresh (input : Input) (output : Output) : Store :=
  ⟨.zero, [], .zero Ram.standardCapacity, input, output⟩

def push (s : Store) (w : Word) : Store := { s with data := w :: s.data }

end Store

def Word.line (w : Word) : List UInt8 := Utf8.encode (w.display ++ "\n")

namespace Effect

variable {J : Type}

def next (s : Store) : Effect J := ⟨.next, s, []⟩

def fail (f : Fault) (s : Store) : Effect J := ⟨.fault f, s, []⟩

/-- Reads a word and pushes it; what is not a number counts as zero. -/
def read (s : Store) : Effect J :=
  let reading := s.input.next
  let s := { s with input := reading.2 }
  match reading.1 with
  | .number w => next (s.push w)
  | .notNumber word => ⟨.next, s.push .zero, [.notNumber word]⟩
  | .exhausted => ⟨.next, s.push .zero, [.exhausted]⟩
  | .failed e => fail (.io e) s

/-- Pops a word and prints it. The word is gone even if printing fails. -/
def print (s : Store) : Effect J :=
  match s.data with
  | [] => fail .dataStackUnderflow s
  | w :: ds =>
    let written := s.output.write w.line
    let s := { s with data := ds, output := written.2 }
    match written.1 with
    | none => next s
    | some e => fail (.io e) s

def unary (f : Word → Word) (s : Store) : Effect J :=
  match s.data with
  | [] => fail .dataStackUnderflow s
  | w :: ds => next { s with data := f w :: ds }

def binary (f : Word → Word → Word) (s : Store) : Effect J :=
  match s.data with
  | r :: l :: ds => next { s with data := f l r :: ds }
  | _ => fail .dataStackUnderflow s

def drop (s : Store) : Effect J :=
  match s.data with
  | [] => fail .dataStackUnderflow s
  | _ :: ds => next { s with data := ds }

def popReg (r : Reg) (s : Store) : Effect J :=
  match s.data with
  | [] => fail .dataStackUnderflow s
  | w :: ds => next { s with data := ds, regs := s.regs.set r w }

def pushRam (a : Int) (s : Store) : Effect J :=
  match s.ram.load a with
  | .ok w => next (s.push w)
  | .error f => fail f s

/-- Moves the topmost word to an address, and keeps it if that fails. -/
def popRam (a : Int) (s : Store) : Effect J :=
  match s.data with
  | [] => fail .dataStackUnderflow s
  | w :: ds =>
    match s.ram.store a w with
    | .ok m => next { s with data := ds, ram := m }
    | .error f => fail f s

/-- Tests the two topmost words, which stay. -/
def branch (c : Cond) (target : J) (s : Store) : Effect J :=
  match s.data with
  | r :: l :: _ => ⟨if c.holds l r then .jump target else .next, s, []⟩
  | _ => fail .dataStackUnderflow s

end Effect

def Store.held (s : Store) (r : Reg) : Int := (s.regs.get r).toNat

namespace Instr

variable {J : Type}

def perform : Instr J → Store → Effect J
  | plain .input, s => .read s
  | plain .output, s => .print s
  | plain (.arith op), s => .binary op.apply s
  | plain (.func op), s => .unary op.apply s
  | plain .ret, s => ⟨.ret, s, []⟩
  | plain .halt, s => ⟨.halt, s, []⟩
  | plain .drop, s => .drop s
  | imm w, s => .next (s.push w)
  | reg .push r, s => .next (s.push (s.regs.get r))
  | reg .pop r, s => .popReg r s
  | held .push r, s => .pushRam (s.held r) s
  | held .pop r, s => .popRam (s.held r) s
  | fixed .push a, s => .pushRam a.toInt s
  | fixed .pop a, s => .popRam a.toInt s
  | jump .always t, s => ⟨.jump t, s, []⟩
  | jump (.when c) t, s => .branch c t s
  | jump .call t, s => ⟨.call t, s, []⟩

end Instr
end StackMachine
