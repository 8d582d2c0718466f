import StackMachine.Assembly.Emission
import StackMachine.Machine.Store

/-!
# StackMachine.Machine.Step

One instruction of a run: fetched, decoded and performed.

* `State`: where control is, and the store.
* `opcodeAt`, `instrAt`: fetching and decoding.
* `jumpTarget?`: where an encoded jump leads.
* `step`: the step from a state, which says how it went on and what the log tells of it.

Leaving the code without `halt` is a fault, also at its very end.
-/

namespace StackMachine

/-- `ip` is the byte offset of the next instruction. The return addresses of the calls that have
not returned yet are in `calls`, the latest first. -/
structure State where
  ip : Nat
  calls : List Nat
  store : Store

inductive Outcome where
  | running
  | halted
  | failed (f : Fault)

structure Step where
  outcome : Outcome
  state : State
  events : List Event

def State.start (input : Input) (output : Output) : State := ⟨0, [], .fresh input output⟩

def opcodeAt (code : Code) (ip : Nat) : Except Fault Opcode :=
  match code[ip]? with
  | none => .error .invalidInstructionPointer
  | some b =>
    match Opcode.ofByte? b with
    | none => .error .unrecognizedCommand
    | some op => .ok op

def instrAt (code : Code) (ip : Nat) (op : Opcode) : Except Fault (Instr Offset) :=
  if ip + op.size ≤ code.size then
    match op.decode? (code.extract (ip + 1) (ip + op.size)).toList with
    | some i => .ok i
    | none => .error .commandArgument
  else .error .commandArgument

/-- Where a jump at `ip` leads, if that is inside the code. -/
def jumpTarget? (code : Code) (ip : Nat) (d : Offset) : Option Nat :=
  let target : Int := ip + d.toInt
  if 0 ≤ target ∧ target < code.size then some target.toNat else none

namespace State

def goto (s : State) (ip : Nat) : Outcome × State := (.running, { s with ip := ip })

def stay (s : State) (f : Fault) : Outcome × State := (.failed f, s)

def transfer (s : State) (code : Code) (following : Nat) : Action Offset → Outcome × State
  | .next => s.goto following
  | .jump d =>
    match jumpTarget? code s.ip d with
    | some t => s.goto t
    | none => s.stay .invalidInstructionPointer
  | .call d =>
    match jumpTarget? code s.ip d with
    | some t => { s with calls := following :: s.calls }.goto t
    | none => s.stay .invalidInstructionPointer
  | .ret =>
    match s.calls with
    | [] => s.stay .callStackUnderflow
    | t :: ts => { s with calls := ts }.goto t
  | .halt => (.halted, s)
  | .fault f => s.stay f

end State

/-- One step. The event of the step itself is told as soon as its opcode is known. -/
def step (code : Code) (s : State) : Step :=
  match opcodeAt code s.ip with
  | .error f => ⟨.failed f, s, []⟩
  | .ok op =>
    let told := Event.step s.ip op s.store.data
    match instrAt code s.ip op with
    | .error f => ⟨.failed f, s, [told]⟩
    | .ok i =>
      let effect := i.perform s.store
      let moved := { s with store := effect.store }.transfer code (s.ip + op.size) effect.action
      ⟨moved.1, moved.2, told :: effect.events⟩

theorem opcodeAt_eq_ok_iff {code : Code} {ip : Nat} {op : Opcode} :
    opcodeAt code ip = .ok op ↔ code[ip]? = some op.byte := by
  unfold opcodeAt
  split
  · rename_i h
    simp [h]
  · rename_i b h
    split
    · rename_i ho
      simp only [h, Option.some.injEq, reduceCtorEq, false_iff]
      intro hb
      rw [hb, Opcode.ofByte?_byte] at ho
      cases ho
    · rename_i o ho
      have hb := Opcode.ofByte?_eq_some_iff.mp ho
      subst hb
      simp only [h, Except.ok.injEq, Option.some.injEq]
      constructor
      · rintro rfl
        rfl
      · intro hb
        have h₁ := Opcode.ofByte?_byte o
        rw [hb, Opcode.ofByte?_byte] at h₁
        exact (Option.some.inj h₁).symm

end StackMachine
