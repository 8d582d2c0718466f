import StackMachine.Machine.Step

/-!
# StackMachine.Proofs.Machine.Fetch

Fetching: the opcode at an address and then its operand, in one.

* `fetch`: the instruction that a step at an address performs, or why there is none.
* `fetch_encode`: what is fetched where an instruction was encoded.
* `step_of_fetch`, `step_of_fetch_error`: a step is an effect and a transfer of control, or it
  changes nothing.
-/

namespace StackMachine

def fetch (code : Code) (a : Nat) : Except Fault (Instr Offset) :=
  match opcodeAt code a with
  | .error f => .error f
  | .ok op => instrAt code a op

theorem instrAt_eq_ok_iff {code : Code} {a : Nat} {op : Opcode} {i : Instr Offset} :
    instrAt code a op = .ok i ↔
      a + op.size ≤ code.size ∧
        op.decode? (code.extract (a + 1) (a + op.size)).toList = some i := by
  unfold instrAt
  split
  · rename_i hs
    split <;> simp_all
  · rename_i hs
    simp [hs]

theorem fetch_eq_ok_iff {code : Code} {a : Nat} {i : Instr Offset} :
    fetch code a = .ok i ↔ opcodeAt code a = .ok i.opcode ∧ instrAt code a i.opcode = .ok i := by
  unfold fetch
  cases ho : opcodeAt code a with
  | error f => simp
  | ok op =>
    constructor
    · intro h
      have hi : i.opcode = op := Opcode.opcode_of_decode? (instrAt_eq_ok_iff.mp h).2
      rw [hi]
      exact ⟨rfl, h⟩
    · rintro ⟨hop, h⟩
      cases hop
      exact h

theorem fetch_le {code : Code} {a : Nat} {i : Instr Offset} (h : fetch code a = .ok i) :
    a + i.size ≤ code.size :=
  (instrAt_eq_ok_iff.mp (fetch_eq_ok_iff.mp h).2).1

theorem fetch_of_size_le {code : Code} {a : Nat} (h : code.size ≤ a) :
    fetch code a = .error .invalidInstructionPointer := by
  simp [fetch, opcodeAt, Array.getElem?_eq_none h]

/-- An instruction is fetched where it was encoded, whatever stands around it. -/
theorem fetch_encode (before after : List UInt8) (i : Instr Offset) :
    fetch (before ++ i.encode ++ after).toArray before.length = .ok i := by
  have hop : opcodeAt (before ++ i.encode ++ after).toArray before.length = .ok i.opcode := by
    rw [opcodeAt_eq_ok_iff]
    simp [Instr.encode]
  have hsize : i.operandBytes.length + 1 = i.opcode.size := by
    rw [Instr.length_operandBytes, Opcode.size, Nat.add_comm]
  have hbytes : ((before ++ i.encode ++ after).toArray.extract (before.length + 1)
      (before.length + i.opcode.size)).toList = i.operandBytes := by
    rw [← hsize]
    simp [Instr.encode, List.extract_eq_take_drop, List.drop_append, List.take_append,
      Nat.add_sub_add_left]
  refine fetch_eq_ok_iff.mpr ⟨hop, instrAt_eq_ok_iff.mpr ⟨?_, ?_⟩⟩
  · simp only [List.size_toArray, List.length_append, Instr.length_encode]
    show before.length + i.opcode.size ≤ before.length + i.opcode.size + after.length
    omega
  · rw [hbytes]
    exact Opcode.decode?_operandBytes i

/-- A step performs the fetched instruction and then moves control. -/
theorem step_of_fetch {code : Code} {s : State} {i : Instr Offset} (h : fetch code s.ip = .ok i) :
    (step code s).outcome =
        (({ s with store := (i.perform s.store).store } : State).transfer code (s.ip + i.size)
          (i.perform s.store).action).1 ∧
      (step code s).state =
        (({ s with store := (i.perform s.store).store } : State).transfer code (s.ip + i.size)
          (i.perform s.store).action).2 := by
  obtain ⟨ho, hi⟩ := fetch_eq_ok_iff.mp h
  simp only [step, ho, hi]
  exact ⟨rfl, rfl⟩

theorem step_of_fetch_error {code : Code} {s : State} {f : Fault} (h : fetch code s.ip = .error f) :
    (step code s).outcome = .failed f ∧ (step code s).state = s := by
  unfold fetch at h
  unfold step
  cases ho : opcodeAt code s.ip with
  | error g =>
    rw [ho] at h
    cases h
    exact ⟨rfl, rfl⟩
  | ok op =>
    rw [ho] at h
    simp [h]

end StackMachine
