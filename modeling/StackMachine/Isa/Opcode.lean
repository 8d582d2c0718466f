/-!
# StackMachine.Isa.Opcode

The twenty-seven opcodes, grouped by what follows them.

* `Plain`: operations without an operand.
* `Move`: the two directions between the data stack and a place.
* `Jump`: the transfers of control; `Cond` is the test of a conditional one.
* `Opcode`: all of them, with `Opcode.byte`, `Opcode.ofByte?` and `Opcode.mnemonic`.
* `OperandKind`, `Opcode.size`: what follows the opcode byte, and the size of the whole.
-/

namespace StackMachine

inductive Arith where
  | add
  | sub
  | mul
  | div
deriving DecidableEq

inductive Func where
  | sin
  | cos
  | sqrt
deriving DecidableEq

inductive Plain where
  | input
  | output
  | arith (op : Arith)
  | func (op : Func)
  | ret
  | halt
  | drop
deriving DecidableEq

/-- `push` moves onto the data stack, `pop` moves off it. -/
inductive Move where
  | push
  | pop
deriving DecidableEq

inductive Cond where
  | equal
  | notEqual
  | above
  | aboveOrEqual
  | below
  | belowOrEqual
deriving DecidableEq

inductive Jump where
  | always
  | when (test : Cond)
  | call
deriving DecidableEq

inductive Opcode where
  | plain (op : Plain)
  | imm
  /-- Moves to or from a register. -/
  | reg (move : Move)
  /-- Moves to or from the RAM address that a register holds. -/
  | held (move : Move)
  /-- Moves to or from a fixed RAM address. -/
  | fixed (move : Move)
  | jump (kind : Jump)
deriving DecidableEq

inductive OperandKind where
  | none
  | register
  | value
  | address
  | offset
deriving DecidableEq

def OperandKind.width : OperandKind → Nat
  | none => 0
  | register => 1
  | value => 8
  | address => 4
  | offset => 4

def Plain.ofMnemonic? : List Char → Option Plain
  | ['i', 'n'] => some .input
  | ['o', 'u', 't'] => some .output
  | ['a', 'd', 'd'] => some (.arith .add)
  | ['s', 'u', 'b'] => some (.arith .sub)
  | ['m', 'u', 'l'] => some (.arith .mul)
  | ['d', 'i', 'v'] => some (.arith .div)
  | ['s', 'i', 'n'] => some (.func .sin)
  | ['c', 'o', 's'] => some (.func .cos)
  | ['s', 'q', 'r', 't'] => some (.func .sqrt)
  | ['r', 'e', 't'] => some .ret
  | ['h', 'a', 'l', 't'] => some .halt
  | ['p', 'o', 'p', 'd'] => some .drop
  | _ => none

def Jump.ofMnemonic? : List Char → Option Jump
  | ['j', 'm', 'p'] => some .always
  | ['j', 'e'] => some (.when .equal)
  | ['j', 'n', 'e'] => some (.when .notEqual)
  | ['j', 'a'] => some (.when .above)
  | ['j', 'a', 'e'] => some (.when .aboveOrEqual)
  | ['j', 'b'] => some (.when .below)
  | ['j', 'b', 'e'] => some (.when .belowOrEqual)
  | ['c', 'a', 'l', 'l'] => some .call
  | _ => none

def Move.ofMnemonic? : List Char → Option Move
  | ['p', 'u', 's', 'h'] => some .push
  | ['p', 'o', 'p'] => some .pop
  | _ => none

def Plain.mnemonic : Plain → String
  | input => "in"
  | output => "out"
  | arith .add => "add"
  | arith .sub => "sub"
  | arith .mul => "mul"
  | arith .div => "div"
  | func .sin => "sin"
  | func .cos => "cos"
  | func .sqrt => "sqrt"
  | ret => "ret"
  | halt => "halt"
  | drop => "popd"

def Move.mnemonic : Move → String
  | push => "push"
  | pop => "pop"

def Jump.mnemonic : Jump → String
  | always => "jmp"
  | when .equal => "je"
  | when .notEqual => "jne"
  | when .above => "ja"
  | when .aboveOrEqual => "jae"
  | when .below => "jb"
  | when .belowOrEqual => "jbe"
  | call => "call"

namespace Opcode

def mnemonic : Opcode → String
  | plain op => op.mnemonic
  | imm => Move.mnemonic .push
  | reg m => m.mnemonic
  | held m => m.mnemonic
  | fixed m => m.mnemonic
  | jump k => k.mnemonic

def operand : Opcode → OperandKind
  | plain _ => .none
  | imm => .value
  | reg _ => .register
  | held _ => .register
  | fixed _ => .address
  | jump _ => .offset

def size (op : Opcode) : Nat := 1 + op.operand.width

def byte : Opcode → UInt8
  | plain .input => 0x01
  | plain .output => 0x02
  | plain (.arith .add) => 0x03
  | plain (.arith .sub) => 0x04
  | plain (.arith .mul) => 0x05
  | plain (.arith .div) => 0x06
  | plain (.func .sin) => 0x07
  | plain (.func .cos) => 0x08
  | plain (.func .sqrt) => 0x09
  | plain .ret => 0x0a
  | plain .halt => 0x0b
  | plain .drop => 0x0c
  | reg .push => 0x0d
  | imm => 0x0e
  | held .push => 0x0f
  | fixed .push => 0x10
  | reg .pop => 0x11
  | fixed .pop => 0x12
  | held .pop => 0x13
  | jump .always => 0x14
  | jump (.when .equal) => 0x15
  | jump (.when .notEqual) => 0x16
  | jump (.when .above) => 0x17
  | jump (.when .aboveOrEqual) => 0x18
  | jump (.when .below) => 0x19
  | jump (.when .belowOrEqual) => 0x1a
  | jump .call => 0x1b

def all : List Opcode :=
  [plain .input, plain .output, plain (.arith .add), plain (.arith .sub), plain (.arith .mul),
    plain (.arith .div), plain (.func .sin), plain (.func .cos), plain (.func .sqrt), plain .ret,
    plain .halt, plain .drop, reg .push, imm, held .push, fixed .push, reg .pop, fixed .pop,
    held .pop, jump .always, jump (.when .equal), jump (.when .notEqual), jump (.when .above),
    jump (.when .aboveOrEqual), jump (.when .below), jump (.when .belowOrEqual), jump .call]

def ofByte? (b : UInt8) : Option Opcode := all.find? fun op => op.byte == b

theorem ofByte?_byte (op : Opcode) : ofByte? op.byte = some op := by
  rcases op with p | _ | m | m | m | k
  · rcases p with _ | _ | a | f | _ | _ | _
    · rfl
    · rfl
    · cases a <;> rfl
    · cases f <;> rfl
    · rfl
    · rfl
    · rfl
  · rfl
  · cases m <;> rfl
  · cases m <;> rfl
  · cases m <;> rfl
  · rcases k with _ | c | _
    · rfl
    · cases c <;> rfl
    · rfl

theorem mem_all (op : Opcode) : op ∈ all := List.mem_of_find?_eq_some (ofByte?_byte op)

theorem ofByte?_eq_some_iff {b : UInt8} {op : Opcode} : ofByte? b = some op ↔ op.byte = b := by
  constructor
  · intro h
    simpa using List.find?_some h
  · rintro rfl
    exact ofByte?_byte op

theorem size_pos (op : Opcode) : 0 < op.size := by
  unfold size
  omega

end Opcode
end StackMachine
