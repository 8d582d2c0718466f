import Mathlib.Algebra.Order.Ring.Int
import StackMachine.Machine.Step

/-!
# StackMachine.Proofs.Machine.Guarded

A step made of the operations of a machine whose sizes have 64 bits.

* `Size.add?`, `Size.sub?`, `Registers.at?`, `Ram.slice?` and the others: operations that have no
  result where that machine would have to stop.
* `Instr.perform?`, `State.transfer?`, `step?`: an instruction, a move of control and a step that
  are made of them.
* `Registers.at?_code`, `Ram.load?_eq`, `instrAt?_eq`, `target?_keep` and the others: where each of
  them has the result of the operation without bounds.
-/

namespace StackMachine

namespace Size

/-- The sum of two sizes, if it is one. -/
def add? (a b : Nat) : Option Nat := if a + b < 2 ^ 64 then some (a + b) else none

def sub? (a b : Nat) : Option Nat := if b ≤ a then some (a - b) else none

theorem add?_eq {a b : Nat} (h : a + b < 2 ^ 64) : add? a b = some (a + b) := if_pos h

theorem add?_eq_none {a b : Nat} (h : ¬ a + b < 2 ^ 64) : add? a b = none := if_neg h

theorem sub?_eq {a b : Nat} (h : b ≤ a) : sub? a b = some (a - b) := if_pos h

end Size

/-- The numbers that 64 bits hold with a sign. -/
def Signed (x : Int) : Prop := -2 ^ 63 ≤ x ∧ x < 2 ^ 63

instance (x : Int) : Decidable (Signed x) := inferInstanceAs (Decidable (-2 ^ 63 ≤ x ∧ x < 2 ^ 63))

namespace Signed

def keep? (x : Int) : Option Int := if Signed x then some x else none

/-- The sum with the bits above the lowest 64 cut off. -/
def wrap? (x : Int) : Option Int := some (x.bmod (2 ^ 64))

end Signed

section Operations

variable {J : Type}

def operand? (code : Code) (ip width : Nat) : Option (Except Fault (List UInt8)) :=
  (Size.add? ip 1).bind fun first =>
    (Size.add? first width).map fun last =>
      if last ≤ code.size then .ok (code.extract first last).toList else .error .commandArgument

def instrAt? (code : Code) (ip : Nat) (op : Opcode) : Option (Except Fault (Instr Offset)) :=
  (operand? code ip op.operand.width).map fun
    | .error f => .error f
    | .ok bytes =>
      match op.decode? bytes with
      | some i => .ok i
      | none => .error .commandArgument

def Registers.at? (s : Registers) (n : Nat) : Option Word := Reg.all[n]?.map s.get

def Registers.put? (s : Registers) (n : Nat) (w : Word) : Option Registers :=
  Reg.all[n]?.map fun r => s.set r w

namespace Ram

/-- Where a word begins and ends, if memory has room for it. This sum is looked at before use. -/
def range (m : Ram) (a : Int) : Except Fault (Nat × Nat) :=
  if a < 0 then .error .invalidRamAddress
  else
    match Size.add? a.toNat wordSize with
    | none => .error .invalidRamAddress
    | some last => if last ≤ m.capacity then .ok (a.toNat, last) else .error .invalidRamAddress

def slice? (m : Ram) (first last : Nat) : Option (List UInt8) :=
  if first ≤ last ∧ last ≤ m.capacity then some (m.bytes first (last - first)) else none

def splice? (m : Ram) (first last : Nat) (bs : List UInt8) : Option Ram :=
  if first ≤ last ∧ last ≤ m.capacity ∧ bs.length = last - first then some (m.write first bs)
  else none

def load? (m : Ram) (a : Int) : Option (Except Fault Word) :=
  match m.range a with
  | .error f => some (.error f)
  | .ok (first, last) => (m.slice? first last).map fun bs => .ok (Word.ofBytes bs)

def store? (m : Ram) (a : Int) (w : Word) : Option (Except Fault Ram) :=
  match m.range a with
  | .error f => some (.error f)
  | .ok (first, last) => (m.splice? first last w.bytes).map .ok

end Ram

namespace Effect

/-- The two topmost words are cut off by the number of those that stay. -/
def binary? (f : Word → Word → Word) (s : Store) : Option (Effect J) :=
  match s.data with
  | r :: l :: _ =>
    (Size.sub? s.data.length 2).map fun n =>
      next { s with data := f l r :: s.data.drop (s.data.length - n) }
  | _ => some (fail .dataStackUnderflow s)

def popReg? (n : Nat) (s : Store) : Option (Effect J) :=
  match s.data with
  | [] => some (fail .dataStackUnderflow s)
  | w :: ds => (s.regs.put? n w).map fun regs => next { s with data := ds, regs := regs }

def pushRam? (a : Int) (s : Store) : Option (Effect J) :=
  (s.ram.load? a).map fun
    | .ok w => next (s.push w)
    | .error f => fail f s

def popRam? (a : Int) (s : Store) : Option (Effect J) :=
  match s.data with
  | [] => some (fail .dataStackUnderflow s)
  | w :: ds =>
    (s.ram.store? a w).map fun
      | .ok m => next { s with data := ds, ram := m }
      | .error f => fail f s

/-- Asks for the test of a jump. A jump without one would be reported as an unknown opcode. -/
def compare (k : Jump) (target : J) (s : Store) : Effect J :=
  match s.data with
  | r :: l :: _ =>
    match k.taken? l r with
    | some taken => ⟨if taken then .jump target else .next, s, []⟩
    | none => fail .unrecognizedCommand s
  | _ => fail .dataStackUnderflow s

end Effect

def Instr.perform? : Instr J → Store → Option (Effect J)
  | .plain (.arith op), s => Effect.binary? op.apply s
  | .reg .push r, s => (s.regs.at? r.code.toNat).map fun w => .next (s.push w)
  | .reg .pop r, s => Effect.popReg? r.code.toNat s
  | .held .push r, s => (s.regs.at? r.code.toNat).bind fun w => Effect.pushRam? w.toNat s
  | .held .pop r, s => (s.regs.at? r.code.toNat).bind fun w => Effect.popRam? w.toNat s
  | .fixed .push a, s => Effect.pushRam? a.toInt s
  | .fixed .pop a, s => Effect.popRam? a.toInt s
  | .jump (.when c) t, s => some (.compare (.when c) t s)
  | i, s => some (i.perform s)

/-- Where a jump leads. The place of the jump is taken as a signed number, and `sum` tells what
becomes of the sum of it and the distance. -/
def target? (sum : Int → Option Int) (code : Code) (ip : Nat) (d : Offset) : Option (Option Nat) :=
  (sum ((ip : Int).bmod (2 ^ 64) + d.toInt)).map fun t : Int =>
    if 0 ≤ t ∧ t < code.size then some t.toNat else none

def State.transfer? (sum : Int → Option Int) (s : State) (code : Code) (size : Nat) :
    Action Offset → Option (Outcome × State)
  | .next => (Size.add? s.ip size).map s.goto
  | .jump d =>
    (target? sum code s.ip d).map fun
      | some t => s.goto t
      | none => s.stay .invalidInstructionPointer
  | .call d =>
    (target? sum code s.ip d).bind fun
      | some t =>
        (Size.add? s.ip size).map fun following => { s with calls := following :: s.calls }.goto t
      | none => some (s.stay .invalidInstructionPointer)
  | a => some (s.transfer code s.ip a)

/-- One step, or none if the machine would have to stop in the middle of it. -/
def step? (sum : Int → Option Int) (code : Code) (s : State) : Option Step :=
  match opcodeAt code s.ip with
  | .error f => some ⟨.failed f, s, []⟩
  | .ok op =>
    let told := Event.step s.ip op s.store.data
    (instrAt? code s.ip op).bind fun
      | .error f => some ⟨.failed f, s, [told]⟩
      | .ok i =>
        (i.perform? s.store).bind fun effect =>
          (({ s with store := effect.store } : State).transfer? sum code op.size effect.action).map
            fun moved => ⟨moved.1, moved.2, told :: effect.events⟩

end Operations

section Arithmetic

theorem OperandKind.width_le (k : OperandKind) : k.width ≤ 8 := by
  cases k <;> decide

theorem instrAt?_eq {code : Code} {ip : Nat} (h : ip < 2 ^ 63) (op : Opcode) :
    instrAt? code ip op = some (instrAt code ip op) := by
  have hwidth := op.operand.width_le
  have hlast : ip + 1 + op.operand.width = ip + op.size := by
    unfold Opcode.size
    omega
  have hoperand : operand? code ip op.operand.width =
      some (if ip + op.size ≤ code.size then .ok (code.extract (ip + 1) (ip + op.size)).toList
        else .error .commandArgument) := by
    rw [operand?, Size.add?_eq (by omega), Option.bind_some, Size.add?_eq (by omega),
      Option.map_some, hlast]
  by_cases hle : ip + op.size ≤ code.size
  · cases hd : op.decode? (code.extract (ip + 1) (ip + op.size)).toList <;>
      simp only [instrAt?, hoperand, instrAt, if_pos hle, Option.map_some, hd]
  · simp only [instrAt?, hoperand, instrAt, if_neg hle, Option.map_some]

theorem Reg.getElem?_code (r : Reg) : all[r.code.toNat]? = some r := by
  cases r <;> rfl

theorem Registers.at?_code (s : Registers) (r : Reg) : s.at? r.code.toNat = some (s.get r) := by
  rw [at?, Reg.getElem?_code, Option.map_some]

theorem Registers.put?_code (s : Registers) (r : Reg) (w : Word) :
    s.put? r.code.toNat w = some (s.set r w) := by
  rw [put?, Reg.getElem?_code, Option.map_some]

namespace Ram

variable {m : Ram} {a : Int}

theorem range_eq (hm : m.capacity < 2 ^ 64) :
    m.range a = if m.fits a then .ok (a.toNat, a.toNat + wordSize)
      else .error .invalidRamAddress := by
  unfold range fits
  by_cases hneg : a < 0
  · have hout : ¬ (0 ≤ a ∧ a + wordSize ≤ m.capacity) := by omega
    simp [hneg, hout]
  · rw [if_neg hneg]
    by_cases hfit : a.toNat + wordSize ≤ m.capacity
    · have hin : 0 ≤ a ∧ a + wordSize ≤ m.capacity := by omega
      rw [Size.add?_eq (by omega)]
      simp [hfit, hin]
    · have hout : ¬ (0 ≤ a ∧ a + wordSize ≤ m.capacity) := by omega
      rw [show decide (0 ≤ a ∧ a + wordSize ≤ m.capacity) = false from decide_eq_false hout]
      by_cases hsum : a.toNat + wordSize < 2 ^ 64
      · rw [Size.add?_eq hsum]
        simp [hfit]
      · rw [Size.add?_eq_none hsum]
        rfl

theorem load?_eq (hm : m.capacity < 2 ^ 64) : m.load? a = some (m.load a) := by
  rw [load?, range_eq hm, load]
  by_cases hfit : m.fits a = true
  · have hin : 0 ≤ a ∧ a + wordSize ≤ m.capacity := by simpa [fits] using hfit
    have hslice : a.toNat ≤ a.toNat + wordSize ∧ a.toNat + wordSize ≤ m.capacity := by omega
    rw [if_pos hfit, if_pos hfit]
    simp only [slice?, if_pos hslice, Nat.add_sub_cancel_left, Option.map_some]
    rfl
  · rw [if_neg hfit, if_neg hfit]

theorem store?_eq (hm : m.capacity < 2 ^ 64) (w : Word) : m.store? a w = some (m.store a w) := by
  rw [store?, range_eq hm, store]
  by_cases hfit : m.fits a = true
  · have hin : 0 ≤ a ∧ a + wordSize ≤ m.capacity := by simpa [fits] using hfit
    have hsplice : a.toNat ≤ a.toNat + wordSize ∧ a.toNat + wordSize ≤ m.capacity ∧
        w.bytes.length = a.toNat + wordSize - a.toNat := by
      rw [Word.length_bytes, wordSize]
      unfold wordSize at hin
      omega
    rw [if_pos hfit, if_pos hfit]
    simp only [splice?, if_pos hsplice, Option.map_some]
  · rw [if_neg hfit, if_neg hfit]

end Ram

section Effects

variable {J : Type} {s : Store}

theorem Effect.binary?_eq (f : Word → Word → Word) :
    (binary? f s : Option (Effect J)) = some (binary f s) := by
  rcases hd : s.data with _ | ⟨r, _ | ⟨l, ds⟩⟩
  · simp only [binary?, binary, hd]
  · simp only [binary?, binary, hd]
  · have hlength : s.data.length = ds.length + 2 := by rw [hd]; rfl
    have hkept : (r :: l :: ds).drop (s.data.length - (s.data.length - 2)) = ds := by
      rw [hlength, Nat.add_sub_cancel, Nat.add_sub_cancel_left]
      rfl
    have hsub : Size.sub? s.data.length 2 = some (s.data.length - 2) := Size.sub?_eq (by omega)
    rw [hd] at hkept hsub
    simp only [binary?, binary, hd, hsub, Option.map_some, hkept]

theorem Effect.popReg?_eq (r : Reg) :
    (popReg? r.code.toNat s : Option (Effect J)) = some (popReg r s) := by
  cases hd : s.data with
  | nil => simp only [popReg?, popReg, hd]
  | cons w ds => simp only [popReg?, popReg, hd, Registers.put?_code, Option.map_some]

theorem Effect.pushRam?_eq (hm : s.ram.capacity < 2 ^ 64) (a : Int) :
    (pushRam? a s : Option (Effect J)) = some (pushRam a s) := by
  cases hl : s.ram.load a <;>
    simp only [pushRam?, pushRam, Ram.load?_eq hm, Option.map_some, hl]

theorem Effect.popRam?_eq (hm : s.ram.capacity < 2 ^ 64) (a : Int) :
    (popRam? a s : Option (Effect J)) = some (popRam a s) := by
  cases hd : s.data with
  | nil => simp only [popRam?, popRam, hd]
  | cons w ds =>
    cases hs : s.ram.store a w <;>
      simp only [popRam?, popRam, hd, Ram.store?_eq hm, Option.map_some, hs]

theorem Effect.compare_eq (c : Cond) (target : J) :
    compare (.when c) target s = branch c target s := by
  unfold compare branch
  rcases s.data with _ | ⟨r, _ | ⟨l, ds⟩⟩ <;> rfl

theorem Instr.perform?_eq (hm : s.ram.capacity < 2 ^ 64) (i : Instr J) :
    i.perform? s = some (i.perform s) := by
  cases i with
  | plain op =>
    cases op with
    | arith op => exact Effect.binary?_eq op.apply
    | input => rfl
    | output => rfl
    | func op => rfl
    | ret => rfl
    | halt => rfl
    | drop => rfl
  | imm w => rfl
  | reg m r =>
    cases m with
    | push => rw [perform?, Registers.at?_code, Option.map_some]; rfl
    | pop => exact Effect.popReg?_eq r
  | held m r =>
    cases m with
    | push =>
      rw [perform?, Registers.at?_code, Option.bind_some, Effect.pushRam?_eq hm]
      rfl
    | pop =>
      rw [perform?, Registers.at?_code, Option.bind_some, Effect.popRam?_eq hm]
      rfl
  | fixed m a =>
    cases m with
    | push => exact Effect.pushRam?_eq hm _
    | pop => exact Effect.popRam?_eq hm _
  | jump k t =>
    cases k with
    | always => rfl
    | call => rfl
    | when c => rw [perform?, Effect.compare_eq]; rfl

end Effects

section Target

variable {code : Code} {ip : Nat}

/-- A sum beyond the signed numbers wraps to a negative one, which is no more a place in the code
than the sum itself. -/
theorem target?_wrap (hcode : code.size < 2 ^ 63) (hip : ip ≤ code.size) (d : Offset) :
    target? Signed.wrap? code ip d = some (jumpTarget? code ip d) := by
  have hlow := d.minValue_le_toInt
  have hhigh := d.toInt_le
  have hmin : Int32.minValue.toInt = -2147483648 := rfl
  have hmax : Int32.maxValue.toInt = 2147483647 := rfl
  have hplace : (ip : Int).bmod (2 ^ 64) = ip := by
    rw [Int.bmod_def]
    omega
  rw [target?, hplace, Signed.wrap?, Option.map_some, jumpTarget?]
  by_cases hsum : (ip : Int) + d.toInt < 2 ^ 63
  · have hsame : ((ip : Int) + d.toInt).bmod (2 ^ 64) = ip + d.toInt := by
      rw [Int.bmod_def]
      omega
    rw [hsame]
  · have hneg : ((ip : Int) + d.toInt).bmod (2 ^ 64) < 0 := by
      rw [Int.bmod_def]
      omega
    rw [if_neg (by omega), if_neg (by omega)]

theorem target?_keep (hroom : ip + 2 ^ 31 ≤ 2 ^ 63) (d : Offset) :
    target? Signed.keep? code ip d = some (jumpTarget? code ip d) := by
  have hlow := d.minValue_le_toInt
  have hhigh := d.toInt_le
  have hmin : Int32.minValue.toInt = -2147483648 := rfl
  have hmax : Int32.maxValue.toInt = 2147483647 := rfl
  have hplace : (ip : Int).bmod (2 ^ 64) = ip := by
    rw [Int.bmod_def]
    omega
  have hsum : Signed (ip + d.toInt) := by
    unfold Signed
    omega
  rw [target?, hplace, Signed.keep?, if_pos hsum, Option.map_some, jumpTarget?]

theorem target?_keep_none (hip : ip < 2 ^ 63) {d : Offset} (hsum : 2 ^ 63 ≤ ip + d.toInt) :
    target? Signed.keep? code ip d = none := by
  have hplace : (ip : Int).bmod (2 ^ 64) = ip := by
    rw [Int.bmod_def]
    omega
  have hout : ¬ Signed (ip + d.toInt) := by
    unfold Signed
    omega
  rw [target?, hplace, Signed.keep?, if_neg hout, Option.map_none]

end Target

theorem State.transfer?_eq {sum : Int → Option Int} {code : Code} {s : State} {size : Nat}
    {a : Action Offset} (hsize : s.ip + size < 2 ^ 64)
    (hsum : ∀ d, a = .jump d ∨ a = .call d →
      target? sum code s.ip d = some (jumpTarget? code s.ip d)) :
    s.transfer? sum code size a = some (s.transfer code (s.ip + size) a) := by
  cases a with
  | next => rw [transfer?, Size.add?_eq hsize]; rfl
  | jump d =>
    cases ht : jumpTarget? code s.ip d <;>
      simp only [transfer?, transfer, hsum d (.inl rfl), Option.map_some, ht]
  | call d =>
    cases ht : jumpTarget? code s.ip d <;>
      simp only [transfer?, transfer, hsum d (.inr rfl), Size.add?_eq hsize, Option.bind_some,
        Option.map_some, ht]
  | ret => rfl
  | halt => rfl
  | fault f => rfl

end Arithmetic

end StackMachine
