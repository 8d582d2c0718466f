import StackMachine.Proofs.Machine.Channels
import StackMachine.Proofs.Machine.Execution

/-!
# StackMachine.Proofs.Machine.Faults

In which fault a step ends.

* `Check`: a condition on code and state, with the fault it stands for. There are six of them:
  `Check.pointer`, `Check.opcode`, `Check.operand`, `Check.depth`, `Check.place` and
  `Check.channel`. They read the code byte by byte and know nothing of the step.
* `Check.all`: the six in the order in which they decide.
* `step_failed_iff`: a step fails exactly when some check finds a fault, with what the first finds.
-/

namespace StackMachine

/-- The number of values that an operation takes off the data stack, or looks at there. -/
def Opcode.uses : Opcode → Nat
  | plain .output => 1
  | plain (.func _) => 1
  | plain .drop => 1
  | plain (.arith _) => 2
  | reg .pop => 1
  | held .pop => 1
  | fixed .pop => 1
  | jump (.when _) => 2
  | _ => 0

/-- The signed number in the four bytes from an address on. -/
def int32At (code : Code) (a : Nat) : Int := (int32OfBytes (code.extract a (a + 4)).toList).toInt

def registerAt? (code : Code) (a : Nat) : Option Reg := code[a]?.bind Reg.ofCode?

def State.place? (code : Code) (s : State) : Opcode → Option Int
  | .fixed _ => some (int32At code (s.ip + 1))
  | .held _ => (registerAt? code (s.ip + 1)).map fun r => (s.store.regs.get r).toNat
  | _ => none

/-- The fault that a condition on code and state stands for, where it holds. -/
abbrev Check := Code → State → Option Fault

namespace Check

/-- Control is outside the code. -/
def pointer : Check := fun code s =>
  if code.size ≤ s.ip then some .invalidInstructionPointer else none

/-- The byte at `ip` is no opcode. -/
def opcode : Check := fun code s =>
  match code[s.ip]? with
  | none => none
  | some b => if Opcode.ofByte? b = none then some .unrecognizedCommand else none

/-- A check of the operation whose opcode is the byte at `ip`. -/
def ofOpcode (find : Code → State → Opcode → Option Fault) : Check := fun code s =>
  (code[s.ip]?.bind Opcode.ofByte?).bind (find code s)

/-- The code ends within the instruction, or a register operand is above 3. -/
def operand : Check := ofOpcode fun code s op =>
  if code.size < s.ip + op.size ∨
      (op.operand = .register ∧ code[s.ip + 1]?.any (fun b => 3 < b.toNat)) then
    some .commandArgument
  else none

/-- A stack is too short. -/
def depth : Check := ofOpcode fun _ s op =>
  if s.store.data.length < op.uses then some .dataStackUnderflow
  else if op = .plain .ret ∧ s.calls = [] then some .callStackUnderflow
  else none

/-- A word does not lie inside memory, or a jump that is taken leads out of the code. -/
def place : Check := ofOpcode fun code s op =>
  match op with
  | .jump k =>
    let target : Int := s.ip + int32At code (s.ip + 1)
    if k.taken s.store.data ∧ (target < 0 ∨ code.size ≤ target) then
      some .invalidInstructionPointer
    else none
  | op =>
    match s.place? code op with
    | none => none
    | some a => if 0 ≤ a ∧ a + 8 ≤ s.store.ram.capacity then none else some .invalidRamAddress

/-- The input cannot be read, or the output refuses what is printed. -/
def channel : Check := ofOpcode fun _ s op =>
  match op, s.store.data with
  | .plain .input, _ =>
    match s.store.input.next.1 with
    | .failed e => some (.io e)
    | _ => none
  | .plain .output, w :: _ => (s.store.output.refusal? w.line).map .io
  | _, _ => none

/-- All checks, in the order in which they decide. -/
def all : List Check := [pointer, opcode, operand, depth, place, channel]

def first (code : Code) (s : State) : Option Fault := all.findSome? fun check => check code s

variable {code : Code} {s : State}

theorem ofOpcode_eq {op : Opcode} (h : opcodeAt code s.ip = .ok op)
    (find : Code → State → Opcode → Option Fault) : ofOpcode find code s = find code s op := by
  rw [ofOpcode, opcodeAt_eq_ok_iff.mp h, Option.bind_some, Opcode.ofByte?_byte, Option.bind_some]

theorem first_of_opcodeAt {op : Opcode} (h : opcodeAt code s.ip = .ok op) :
    first code s =
      (operand code s).or ((depth code s).or ((place code s).or (channel code s))) := by
  have hb := opcodeAt_eq_ok_iff.mp h
  have hpointer : pointer code s = none := by
    have hlt := (Array.getElem?_eq_some_iff.mp hb).1
    simp only [pointer]
    rw [if_neg (by omega)]
  have hopcode : opcode code s = none := by
    simp [opcode, hb, Opcode.ofByte?_byte]
  simp only [first, all, List.findSome?_cons, hpointer, hopcode, List.findSome?_nil]
  cases operand code s <;> cases depth code s <;> cases place code s <;>
    cases channel code s <;> rfl

theorem first_of_opcodeAt_error {f : Fault} (h : opcodeAt code s.ip = .error f) :
    first code s = some f := by
  unfold opcodeAt at h
  split at h
  · rename_i hnone
    cases h
    have hle := Array.getElem?_eq_none_iff.mp hnone
    simp [first, all, pointer, hle]
  · rename_i b hb
    split at h
    · rename_i hop
      cases h
      have hlt := (Array.getElem?_eq_some_iff.mp hb).1
      have hle : ¬ code.size ≤ s.ip := by omega
      simp [first, all, pointer, opcode, hb, hop, hle]
    · cases h

end Check

section Operands

variable {code : Code} {a : Nat}

theorem toList_extract_one {b : UInt8} :
    (code.extract a (a + 1)).toList = [b] ↔ code[a]? = some b := by
  constructor
  · intro h
    have h₀ : (code.extract a (a + 1)).toList[0]? = some b := by rw [h]; rfl
    rw [Array.getElem?_toList, Array.getElem?_extract] at h₀
    split at h₀
    · simpa using h₀
    · cases h₀
  · intro h
    obtain ⟨hlt, hb⟩ := Array.getElem?_eq_some_iff.mp h
    apply List.ext_getElem?
    intro n
    rw [Array.getElem?_toList, Array.getElem?_extract]
    cases n with
    | zero =>
      rw [if_pos (by omega)]
      simpa using h
    | succ n =>
      rw [if_neg (by omega)]
      simp

theorem decode_of_fetch {i : Instr Offset} (h : fetch code a = .ok i) :
    i.opcode.decode? (code.extract (a + 1) (a + i.opcode.size)).toList = some i :=
  (instrAt_eq_ok_iff.mp (fetch_eq_ok_iff.mp h).2).2

theorem fetch_reg {m : Move} {r : Reg} (h : fetch code a = .ok (.reg m r)) :
    code[a + 1]? = some r.code := by
  obtain ⟨r', hbs, hr⟩ := eq_of_decodeReg? (decode_of_fetch h)
  cases hr
  exact toList_extract_one.mp hbs

theorem fetch_held {m : Move} {r : Reg} (h : fetch code a = .ok (.held m r)) :
    code[a + 1]? = some r.code := by
  obtain ⟨r', hbs, hr⟩ := eq_of_decodeReg? (decode_of_fetch h)
  cases hr
  exact toList_extract_one.mp hbs

theorem fetch_fixed {m : Move} {x : Int32} (h : fetch code a = .ok (.fixed m x)) :
    int32At code (a + 1) = x.toInt := by
  have hd := decode_of_fetch h
  simp only [Instr.opcode, Opcode.decode?, Option.some.injEq, Instr.fixed.injEq, true_and] at hd
  rw [← hd]
  rfl

theorem fetch_jump {k : Jump} {d : Offset} (h : fetch code a = .ok (.jump k d)) :
    int32At code (a + 1) = d.toInt := by
  have hd := decode_of_fetch h
  simp only [Instr.opcode, Opcode.decode?, Option.some.injEq, Instr.jump.injEq, true_and] at hd
  rw [← hd]
  rfl

end Operands

namespace Check

variable {code : Code} {s : State}

theorem operand_of_fetch {i : Instr Offset} (h : fetch code s.ip = .ok i) :
    operand code s = none := by
  have hle : ¬ code.size < s.ip + i.opcode.size := by
    have : s.ip + i.opcode.size ≤ code.size := fetch_le h
    omega
  have hreg : ∀ r : Reg, ¬ 3 < r.code.toNat := by
    intro r
    cases r <;> decide
  rw [operand, ofOpcode_eq (fetch_eq_ok_iff.mp h).1]
  cases i with
  | plain op => simpa [Instr.opcode, Opcode.operand] using hle
  | imm w => simpa [Instr.opcode, Opcode.operand] using hle
  | reg m r => simpa [Instr.opcode, fetch_reg h, hreg] using hle
  | held m r => simpa [Instr.opcode, fetch_held h, hreg] using hle
  | fixed m x => simpa [Instr.opcode, Opcode.operand] using hle
  | jump k d => simpa [Instr.opcode, Opcode.operand] using hle

theorem operand_of_instrAt_error {op : Opcode} {f : Fault} (ho : opcodeAt code s.ip = .ok op)
    (h : instrAt code s.ip op = .error f) : operand code s = some f := by
  have hunknown : ∀ make : Reg → Instr Offset, s.ip + 1 < code.size →
      decodeReg? make (code.extract (s.ip + 1) (s.ip + 1 + 1)).toList = none →
      (code[s.ip + 1]?.any fun b => 3 < b.toNat) = true := by
    intro make hlt hnone
    have hb := Array.getElem?_eq_getElem hlt
    rw [toList_extract_one.mpr hb] at hnone
    simp only [decodeReg?, Option.map_eq_none_iff] at hnone
    simpa [hb] using Reg.ofCode?_eq_none_iff.mp hnone
  rw [operand, ofOpcode_eq ho]
  unfold instrAt at h
  split at h
  · rename_i hle
    split at h
    · cases h
    · rename_i hnone
      cases h
      cases op with
      | plain p => cases hnone
      | imm => cases hnone
      | reg m =>
        have hlt : s.ip + 1 < code.size := hle
        have := hunknown _ hlt hnone
        simp [Opcode.operand, this]
      | held m =>
        have hlt : s.ip + 1 < code.size := hle
        have := hunknown _ hlt hnone
        simp [Opcode.operand, this]
      | fixed m => cases hnone
      | jump k => cases hnone
  · rename_i hle
    cases h
    rw [if_pos (.inl (by omega))]

end Check

def Outcome.fault? : Outcome → Option Fault
  | running => none
  | halted => none
  | failed f => some f

theorem Outcome.fault?_eq_some_iff {o : Outcome} {f : Fault} :
    o.fault? = some f ↔ o = .failed f := by
  cases o <;> simp [fault?]

section Instr

variable {code : Code} {s : State}

theorem fault?_enter (t : State) (d : Offset) (calls : List Nat) :
    (t.enter code d calls).1.fault? =
      if t.ip + d.toInt < 0 ∨ code.size ≤ t.ip + d.toInt then some .invalidInstructionPointer
      else none := by
  simp only [State.enter, jumpTarget?]
  by_cases h : 0 ≤ t.ip + d.toInt ∧ t.ip + d.toInt < code.size
  · have hout : ¬ (t.ip + d.toInt < 0 ∨ code.size ≤ t.ip + d.toInt) := by omega
    rw [if_pos h, if_neg hout]
    rfl
  · have hout : t.ip + d.toInt < 0 ∨ code.size ≤ t.ip + d.toInt := by omega
    rw [if_neg h, if_pos hout]
    rfl

theorem fault?_pushRam (t : State) (following : Nat) (a : Int) (st : Store) :
    (t.transfer code following (Effect.pushRam a st).action).1.fault? =
      if 0 ≤ a ∧ a + 8 ≤ st.ram.capacity then none else some .invalidRamAddress := by
  simp only [Effect.pushRam, Ram.load, Ram.fits, Ram.wordSize]
  by_cases h : 0 ≤ a ∧ a + 8 ≤ st.ram.capacity
  · simp [h, Effect.next, State.transfer, State.goto, Outcome.fault?]
  · simp [h, Effect.fail, State.transfer, State.stay, Outcome.fault?]

theorem fault?_popRam (t : State) (following : Nat) (a : Int) (st : Store) :
    (t.transfer code following (Effect.popRam a st).action).1.fault? =
      if st.data.length < 1 then some .dataStackUnderflow
      else if 0 ≤ a ∧ a + 8 ≤ st.ram.capacity then none else some .invalidRamAddress := by
  simp only [Effect.popRam, Ram.store, Ram.fits, Ram.wordSize]
  cases st.data with
  | nil => rfl
  | cons w ws =>
    by_cases h : 0 ≤ a ∧ a + 8 ≤ st.ram.capacity
    · simp [h, Effect.next, State.transfer, State.goto, Outcome.fault?]
    · simp [h, Effect.fail, State.transfer, State.stay, Outcome.fault?]

theorem fault?_step {i : Instr Offset} (h : fetch code s.ip = .ok i) :
    (step code s).outcome.fault? =
      (Check.depth code s).or ((Check.place code s).or (Check.channel code s)) := by
  have hop := (fetch_eq_ok_iff.mp h).1
  rw [(step_of_fetch h).1, Check.depth, Check.place, Check.channel, Check.ofOpcode_eq hop,
    Check.ofOpcode_eq hop, Check.ofOpcode_eq hop]
  obtain ⟨ip, calls, regs, data, ram, input, output⟩ := s
  cases i with
  | plain op =>
    cases op with
    | input =>
      simp only [Instr.perform, Effect.read, Instr.opcode, Opcode.uses, State.place?]
      cases input.next.1 <;> rfl
    | output =>
      rcases data with _ | ⟨w, rest⟩
      · rfl
      · simp only [Instr.perform, Effect.print, Instr.opcode, Opcode.uses, State.place?,
          Output.write]
        cases output.refusal? w.line <;> rfl
    | arith op => rcases data with _ | ⟨r, _ | ⟨l, rest⟩⟩ <;> rfl
    | func op => cases data <;> rfl
    | ret => cases calls <;> rfl
    | halt => rfl
    | drop => cases data <;> rfl
  | imm w => rfl
  | reg m r =>
    cases m with
    | push => rfl
    | pop => cases data <;> rfl
  | held m r =>
    have hr : (registerAt? code (ip + 1)) = some r := by
      rw [registerAt?, fetch_held h, Option.bind_some, Reg.ofCode?_code]
    cases m with
    | push =>
      rw [Instr.perform, fault?_pushRam]
      simp [Instr.opcode, Opcode.uses, State.place?, hr, Store.held]
    | pop =>
      rw [Instr.perform, fault?_popRam]
      simp only [Instr.opcode, Opcode.uses, State.place?, hr, Store.held, Option.map_some]
      cases data <;> simp
  | fixed m x =>
    have hx : int32At code (ip + 1) = x.toInt := fetch_fixed h
    cases m with
    | push =>
      rw [Instr.perform, fault?_pushRam]
      simp [Instr.opcode, Opcode.uses, State.place?, hx]
    | pop =>
      rw [Instr.perform, fault?_popRam]
      simp only [Instr.opcode, Opcode.uses, State.place?, hx]
      cases data <;> simp
  | jump k d =>
    have hd : int32At code (ip + 1) = d.toInt := fetch_jump h
    cases k with
    | always =>
      rw [Instr.perform, State.transfer_jump, fault?_enter]
      simp [Instr.opcode, Opcode.uses, Jump.taken, hd]
    | call =>
      rw [Instr.perform, State.transfer_call, fault?_enter]
      simp [Instr.opcode, Opcode.uses, Jump.taken, hd]
    | when c =>
      rcases data with _ | ⟨r, _ | ⟨l, rest⟩⟩
      · rfl
      · rfl
      · simp only [Instr.perform, Effect.branch, Instr.opcode, Opcode.uses, Jump.taken, hd]
        have hlen : ¬ rest.length + 1 + 1 < 2 := by omega
        cases hc : c.holds l r with
        | true => simp [State.transfer_jump, fault?_enter, hlen]
        | false => simp [State.transfer, State.goto, Outcome.fault?, hlen]

end Instr

theorem fault?_step_eq_first (code : Code) (s : State) :
    (step code s).outcome.fault? = Check.first code s := by
  cases hop : opcodeAt code s.ip with
  | error f =>
    have hf : fetch code s.ip = .error f := by simp [fetch, hop]
    rw [(step_of_fetch_error hf).1, Check.first_of_opcodeAt_error hop]
    rfl
  | ok op =>
    rw [Check.first_of_opcodeAt hop]
    cases hi : instrAt code s.ip op with
    | error f =>
      have hf : fetch code s.ip = .error f := by simp [fetch, hop, hi]
      rw [(step_of_fetch_error hf).1, Check.operand_of_instrAt_error hop hi]
      rfl
    | ok i =>
      have hf : fetch code s.ip = .ok i := by simp [fetch, hop, hi]
      rw [fault?_step hf, Check.operand_of_fetch hf, Option.none_or]

theorem capacity_perform {J : Type} (i : Instr J) (s : Store) :
    (i.perform s).store.ram.capacity = s.ram.capacity := by
  rcases ram_perform s i with h | ⟨a, w, h⟩
  · rw [h]
  · exact Ram.capacity_store h

theorem capacity_step (code : Code) (s : State) :
    (step code s).state.store.ram.capacity = s.store.ram.capacity := by
  cases hf : fetch code s.ip with
  | error f => rw [(step_of_fetch_error hf).2]
  | ok i => rw [store_step hf, capacity_perform]

/-- A step fails exactly when one of the checks finds a fault, and then with what the first of them
finds. The memory that words have to lie in has 51200 bytes at the start, and keeps them. -/
theorem step_failed_iff (code : Code) (s : State) (input : Input) (output : Output) :
    (∀ f, (step code s).outcome = .failed f ↔
        Check.all.findSome? (fun check => check code s) = some f) ∧
      (State.start input output).store.ram.capacity = 51200 ∧
      (step code s).state.store.ram.capacity = s.store.ram.capacity := by
  refine ⟨?_, rfl, capacity_step code s⟩
  intro f
  rw [← Outcome.fault?_eq_some_iff, fault?_step_eq_first, Check.first]

end StackMachine
