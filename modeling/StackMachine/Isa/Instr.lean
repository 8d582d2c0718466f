import StackMachine.Bytes.LittleEndian
import StackMachine.Isa.Opcode
import StackMachine.Isa.Register
import StackMachine.Word

/-!
# StackMachine.Isa.Instr

Instructions: an opcode with its operand. The target of a jump is a parameter, so that one type
serves a program with named targets and a program with encoded ones.

* `Instr`: the instructions; `Instr.opcode`, `Instr.size`.
* `Offset`: an encoded target, relative to the first byte of the jump.
* `Instr.encode`: the bytes of an instruction, operands in little-endian order.
* `Opcode.decode?`: the instruction that an opcode and its operand bytes stand for.
-/

namespace StackMachine

/-- Instructions whose jumps have targets in `J`. -/
inductive Instr (J : Type) where
  | plain (op : Plain)
  | imm (value : Word)
  | reg (move : Move) (r : Reg)
  | held (move : Move) (r : Reg)
  | fixed (move : Move) (address : Int32)
  | jump (kind : Jump) (target : J)
deriving DecidableEq

/-- The distance from the first byte of a jump to its target. -/
abbrev Offset := Int32

def int32Bytes (n : Int32) : List UInt8 := LittleEndian.encode 4 n.toUInt32.toNat

def int32OfBytes (bs : List UInt8) : Int32 := (UInt32.ofNat (LittleEndian.decode bs)).toInt32

def Word.bytes (w : Word) : List UInt8 := LittleEndian.encode 8 w.toNat

def Word.ofBytes (bs : List UInt8) : Word := ⟨UInt64.ofNat (LittleEndian.decode bs)⟩

@[simp] theorem length_int32Bytes (n : Int32) : (int32Bytes n).length = 4 := by simp [int32Bytes]

@[simp] theorem Word.length_bytes (w : Word) : w.bytes.length = 8 := by simp [Word.bytes]

theorem int32OfBytes_int32Bytes (n : Int32) : int32OfBytes (int32Bytes n) = n := by
  have h : n.toUInt32.toNat % Nat.pow 256 4 = n.toUInt32.toNat :=
    Nat.mod_eq_of_lt n.toUInt32.toNat_lt
  rw [int32OfBytes, int32Bytes, LittleEndian.decode_encode, h, UInt32.ofNat_toNat]
  rfl

theorem Word.ofBytes_bytes (w : Word) : Word.ofBytes w.bytes = w := by
  have h : w.bits.toNat % Nat.pow 256 8 = w.bits.toNat := Nat.mod_eq_of_lt w.bits.toNat_lt
  rw [Word.ofBytes, Word.bytes, LittleEndian.decode_encode, Word.toNat, h, UInt64.ofNat_toNat]

namespace Instr

variable {J : Type}

def opcode : Instr J → Opcode
  | plain op => .plain op
  | imm _ => .imm
  | reg m _ => .reg m
  | held m _ => .held m
  | fixed m _ => .fixed m
  | jump k _ => .jump k

def size (i : Instr J) : Nat := i.opcode.size

def operandBytes : Instr Offset → List UInt8
  | plain _ => []
  | imm w => w.bytes
  | reg _ r => [r.code]
  | held _ r => [r.code]
  | fixed _ a => int32Bytes a
  | jump _ d => int32Bytes d

def encode (i : Instr Offset) : List UInt8 := i.opcode.byte :: i.operandBytes

theorem size_pos (i : Instr J) : 0 < i.size := i.opcode.size_pos

theorem length_operandBytes (i : Instr Offset) :
    i.operandBytes.length = i.opcode.operand.width := by
  cases i <;> simp [operandBytes, opcode, Opcode.operand, OperandKind.width]

@[simp] theorem length_encode (i : Instr Offset) : i.encode.length = i.size := by
  simp [encode, size, Opcode.size, length_operandBytes, Nat.add_comm]

end Instr

def decodeReg? (make : Reg → Instr Offset) : List UInt8 → Option (Instr Offset)
  | [b] => (Reg.ofCode? b).map make
  | _ => none

/-- The instruction with a given opcode and operand bytes, as many as the opcode asks for; none if
a register code is unknown. -/
def Opcode.decode? (op : Opcode) (bs : List UInt8) : Option (Instr Offset) :=
  match op with
  | plain p => some (.plain p)
  | imm => some (.imm (Word.ofBytes bs))
  | reg m => decodeReg? (.reg m) bs
  | held m => decodeReg? (.held m) bs
  | fixed m => some (.fixed m (int32OfBytes bs))
  | jump k => some (.jump k (int32OfBytes bs))

theorem Opcode.decode?_operandBytes (i : Instr Offset) :
    i.opcode.decode? i.operandBytes = some i := by
  cases i <;>
    simp [Instr.opcode, Instr.operandBytes, Opcode.decode?, decodeReg?, Word.ofBytes_bytes,
      int32OfBytes_int32Bytes, Reg.ofCode?_code]

theorem eq_of_decodeReg? {make : Reg → Instr Offset} {bs : List UInt8} {i : Instr Offset}
    (h : decodeReg? make bs = some i) : ∃ r, bs = [r.code] ∧ i = make r := by
  unfold decodeReg? at h
  split at h
  · obtain ⟨r, hr, rfl⟩ := Option.map_eq_some_iff.mp h
    exact ⟨r, by rw [Reg.ofCode?_eq_some_iff.mp hr], rfl⟩
  · simp at h

theorem Opcode.opcode_of_decode? {op : Opcode} {bs : List UInt8} {i : Instr Offset}
    (h : op.decode? bs = some i) : i.opcode = op := by
  cases op <;> simp only [Opcode.decode?, Option.some.injEq] at h
  · subst h; rfl
  · subst h; rfl
  · obtain ⟨_, _, rfl⟩ := eq_of_decodeReg? h; rfl
  · obtain ⟨_, _, rfl⟩ := eq_of_decodeReg? h; rfl
  · subst h; rfl
  · subst h; rfl

end StackMachine
