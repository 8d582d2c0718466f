import StackMachine.Proofs.Machine.Faults
import StackMachine.Proofs.Machine.Guarded

/-!
# StackMachine.Proofs.Machine.Safety

No operation of a step leaves its range, whatever bytes the code consists of.

* `Sound`: what holds of every state that is reached. `ip` is inside the code or at its end, return
  addresses stand behind calls, and memory neither grows nor has cells outside.
* `sound_step`, `sound_reaches`: a step keeps it, and so does every run.
* `step?_eq`: from a sound state the guarded step has a result, and it is that of `step`.
* `step_in_range`: all this for every state reached from the start.
* `jumpCode`: code of jumps that lead from one to the next, of any number and distance. With the
  farthest of them the sum of place and distance leaves its range (`sum_out_of_range`).
-/

namespace StackMachine

/-- An address behind a call instruction. -/
structure Returns (code : Code) (a : Nat) : Prop where
  ge : 5 ≤ a
  le : a ≤ code.size
  call : code[a - 5]? = some (Opcode.jump .call).byte

/-- Memory of the given size, without a cell outside. -/
structure Ram.Sized (m : Ram) (n : Nat) : Prop where
  capacity : m.capacity = n
  cells : ∀ a ∈ m.cells, a < n

structure Sound (code : Code) (s : State) : Prop where
  ip : s.ip ≤ code.size
  calls : ∀ a ∈ s.calls, Returns code a
  ram : s.store.ram.Sized Ram.standardCapacity

section Sound

variable {code : Code} {s t : State}

theorem Ram.mem_cells_write {m : Ram} {a x : Nat} {bs : List UInt8}
    (h : x ∈ (m.write a bs).cells) : x ∈ m.cells ∨ (a ≤ x ∧ x < a + bs.length) := by
  induction bs generalizing m a with
  | nil => exact .inl h
  | cons b bs ih =>
    rcases ih h with hx | hx
    · rcases Std.TreeMap.mem_insert.mp hx with hx | hx
      · have : a = x := Nat.compare_eq_eq.mp hx
        right
        rw [List.length_cons]
        omega
      · exact .inl hx
    · right
      rw [List.length_cons]
      omega

theorem Ram.Sized.store {m m' : Ram} {n : Nat} {a : Int} {w : Word} (h : m.Sized n)
    (hm : m.store a w = .ok m') : m'.Sized n := by
  refine ⟨by rw [capacity_store hm, h.capacity], ?_⟩
  intro x hx
  unfold Ram.store at hm
  split at hm
  · rename_i hfit
    cases hm
    have hin : 0 ≤ a ∧ a + wordSize ≤ m.capacity := by simpa [fits] using hfit
    rcases mem_cells_write hx with hx | hx
    · exact h.cells x hx
    · rw [Word.length_bytes] at hx
      rw [← h.capacity]
      unfold wordSize at hin
      omega
  · cases hm

theorem Ram.Sized.perform {J : Type} {st : Store} {n : Nat} (h : st.ram.Sized n) (i : Instr J) :
    (i.perform st).store.ram.Sized n := by
  rcases ram_perform st i with hm | ⟨a, w, hm⟩
  · rw [hm]
    exact h
  · exact h.store hm

theorem sound_start (code : Code) (input : Input) (output : Output) :
    Sound code (.start input output) := by
  refine ⟨Nat.zero_le _, ?_, rfl, ?_⟩
  · intro a ha
    cases ha
  · intro a ha
    exact absurd ha Std.TreeMap.not_mem_emptyc

theorem sound_of_goes {i : Instr Offset} (hs : Sound code s) (hf : fetch code s.ip = .ok i)
    {o : Outcome} {ip : Nat} {calls : List Nat} (h : Goes code s i o ip calls) :
    ip ≤ code.size ∧ ∀ a ∈ calls, Returns code a := by
  cases h with
  | next => exact ⟨fetch_le hf, hs.calls⟩
  | jump _ _ _ ht => exact ⟨Nat.le_of_lt (jumpTarget?_lt ht), hs.calls⟩
  | @call d t hi ht =>
    refine ⟨Nat.le_of_lt (jumpTarget?_lt ht), ?_⟩
    intro a ha
    -- The new return address is the end of this call, which was fetched whole.
    rcases List.mem_cons.mp ha with rfl | ha
    · subst hi
      have hop := opcodeAt_eq_ok_iff.mp (fetch_eq_ok_iff.mp hf).1
      exact ⟨Nat.le_add_left 5 s.ip, fetch_le hf, hop⟩
    · exact hs.calls a ha
  | ret _ hcalls =>
    -- No address comes on the stack but by a call.
    refine ⟨(hs.calls _ (by simp [hcalls])).le, ?_⟩
    intro a ha
    exact hs.calls a (by simp [hcalls, ha])
  | halt _ => exact ⟨hs.ip, hs.calls⟩
  | leave _ _ _ => exact ⟨hs.ip, hs.calls⟩
  | fault _ => exact ⟨hs.ip, hs.calls⟩

theorem sound_step (hs : Sound code s) : Sound code (step code s).state := by
  cases hf : fetch code s.ip with
  | error f =>
    rw [(step_of_fetch_error hf).2]
    exact hs
  | ok i =>
    obtain ⟨hip, hcalls⟩ := sound_of_goes hs hf (goes_step hf)
    refine ⟨hip, hcalls, ?_⟩
    rw [store_step hf]
    exact hs.ram.perform i

theorem sound_reaches (hs : Sound code s) (h : Reaches code s t) : Sound code t := by
  induction h with
  | refl => exact hs
  | step _ ih => exact sound_step ih

/-- From a sound state no operation is without a result, if the targets of its jumps have one. A jump
has five bytes. -/
theorem step?_eq {sum : Int → Option Int} (hcode : code.size < 2 ^ 63) (hs : Sound code s)
    (hsum : s.ip + 5 ≤ code.size →
      ∀ d, target? sum code s.ip d = some (jumpTarget? code s.ip d)) :
    step? sum code s = some (step code s) := by
  have hip := hs.ip
  have hram : s.store.ram.capacity < 2 ^ 64 := by
    rw [hs.ram.capacity]
    decide
  unfold step? step
  cases hop : opcodeAt code s.ip with
  | error f => rfl
  | ok op =>
    simp only
    rw [instrAt?_eq (by omega), Option.bind_some]
    cases hi : instrAt code s.ip op with
    | error f => rfl
    | ok i =>
      obtain ⟨hle, hdecode⟩ := instrAt_eq_ok_iff.mp hi
      have htarget : ∀ d, (i.perform s.store).action = .jump d ∨ (i.perform s.store).action = .call d →
          target? sum code s.ip d = some (jumpTarget? code s.ip d) := by
        intro d hd
        obtain ⟨k, rfl⟩ := Instr.jump_of_action hd
        rw [← Opcode.opcode_of_decode? hdecode] at hle
        exact hsum hle d
      have hmove := State.transfer?_eq (s := { s with store := (i.perform s.store).store })
        (show s.ip + op.size < 2 ^ 64 by omega) htarget
      simp only
      rw [Instr.perform?_eq hram, Option.bind_some, hmove, Option.map_some]

theorem step?_eq_none {sum : Int → Option Int} {d : Offset}
    (h : fetch code s.ip = .ok (.jump .always d)) (hip : s.ip < 2 ^ 63)
    (htarget : target? sum code s.ip d = none) : step? sum code s = none := by
  obtain ⟨hop, hi⟩ := fetch_eq_ok_iff.mp h
  unfold step?
  rw [hop]
  simp only
  rw [instrAt?_eq hip, Option.bind_some, hi]
  show ((target? sum code s.ip d).map _).map _ = none
  rw [htarget]
  rfl

/-- The opcode of an instruction that was fetched is not taken for an unknown one later. -/
theorem ne_unrecognized_of_fetch {i : Instr Offset} (hf : fetch code s.ip = .ok i) :
    (step code s).outcome ≠ .failed .unrecognizedCommand := by
  intro h
  have hgoes := goes_step hf
  rw [h] at hgoes
  generalize (step code s).state.ip = ip at hgoes
  generalize (step code s).state.calls = calls at hgoes
  cases hgoes with
  | fault hfault => cases hfault

end Sound

section Jumps

/-- Jumps one behind the other, with room between them. -/
def jumps (d : Offset) (gap n : Nat) : List UInt8 :=
  (List.replicate n ((Instr.jump .always d).encode ++ List.replicate gap 0)).flatten

def jumpCode (d : Offset) (gap n : Nat) : Code :=
  (jumps d gap n ++ (Instr.jump .always d).encode).toArray

variable (d : Offset) (gap : Nat)

theorem length_jumps (n : Nat) : (jumps d gap n).length = n * (5 + gap) := by
  have hsize : (Instr.jump .always d).size = 5 := rfl
  simp [jumps, hsize]

theorem size_jumpCode (n : Nat) : (jumpCode d gap n).size = n * (5 + gap) + 5 := by
  have hsize : (Instr.jump .always d).size = 5 := rfl
  simp [jumpCode, length_jumps, hsize]

theorem fetch_jumpCode {m n : Nat} (h : m ≤ n) :
    fetch (jumpCode d gap n) (m * (5 + gap)) = .ok (.jump .always d) := by
  obtain ⟨k, rfl⟩ := Nat.exists_eq_add_of_le h
  have hsplit : jumps d gap (m + k) = jumps d gap m ++ jumps d gap k := by
    rw [jumps, ← List.replicate_append_replicate, List.flatten_append]
    rfl
  have hbehind : ∃ after, jumps d gap k ++ (Instr.jump .always d).encode =
      (Instr.jump .always d).encode ++ after := by
    cases k with
    | zero => exact ⟨[], by simp [jumps]⟩
    | succ k => exact ⟨_, by rw [jumps, List.replicate_succ, List.flatten_cons, List.append_assoc,
        List.append_assoc]⟩
  obtain ⟨after, hafter⟩ := hbehind
  have hfetch := fetch_encode (jumps d gap m) after (.jump .always d)
  rw [length_jumps] at hfetch
  rw [jumpCode, hsplit, List.append_assoc, hafter, ← List.append_assoc]
  exact hfetch

variable {d gap}

/-- Where a jump leads from one to the next, each of them is reached. -/
theorem reaches_jumpCode (hd : d.toInt = 5 + gap) {m n : Nat} (h : m ≤ n) (input : Input)
    (output : Output) : ∃ s, Reaches (jumpCode d gap n) (.start input output) s ∧
      s.ip = m * (5 + gap) := by
  induction m with
  | zero => exact ⟨_, .refl, (Nat.zero_mul _).symm⟩
  | succ m ih =>
    obtain ⟨s, hs, hip⟩ := ih (Nat.le_of_succ_le h)
    have hfetch : fetch (jumpCode d gap n) s.ip = .ok (.jump .always d) := by
      rw [hip]
      exact fetch_jumpCode d gap (Nat.le_of_succ_le h)
    have hnext : (m + 1) * (5 + gap) = m * (5 + gap) + (5 + gap) := Nat.succ_mul m (5 + gap)
    have hmul : (m + 1) * (5 + gap) ≤ n * (5 + gap) := Nat.mul_le_mul_right (5 + gap) h
    have htarget : jumpTarget? (jumpCode d gap n) s.ip d = some ((m + 1) * (5 + gap)) := by
      rw [jumpTarget?, hip, hd, size_jumpCode, hnext, if_pos (by omega)]
      rfl
    refine ⟨_, hs.step, ?_⟩
    rw [(step_of_fetch hfetch).2]
    show (State.transfer _ (jumpCode d gap n) _ (.jump d)).2.ip = _
    rw [State.transfer_jump, State.enter, htarget]

end Jumps

/-- A step never leaves the range of a 64-bit machine, whatever the code. Control is in the code or
at its end, and every return address stands behind a call. Memory keeps its 51200 bytes. In all code
that leaves room for the distance of a jump the sum of the two is kept as it is; in the longest code
of all, where there is no such room, a sum that wraps makes no difference. -/
theorem step_in_range {code : Code} (hcode : code.size < 2 ^ 63) {input : Input} {output : Output}
    {s : State} (hs : Reaches code (.start input output) s) :
    s.ip ≤ code.size ∧
      (∀ a ∈ s.calls, 5 ≤ a ∧ a ≤ code.size ∧ code[a - 5]? = some (Opcode.jump .call).byte) ∧
      s.store.ram.capacity = 51200 ∧ (∀ a ∈ s.store.ram.cells, a < 51200) ∧
      (code.size + 2 ^ 31 ≤ 2 ^ 63 + 5 → step? Signed.keep? code s = some (step code s)) ∧
      step? Signed.wrap? code s = some (step code s) ∧
      ∀ i, fetch code s.ip = .ok i → (step code s).outcome ≠ .failed .unrecognizedCommand := by
  have hsound := sound_reaches (sound_start code input output) hs
  refine ⟨hsound.ip, ?_, hsound.ram.capacity, hsound.ram.cells, ?_, ?_, ?_⟩
  · intro a ha
    have hreturns := hsound.calls a ha
    exact ⟨hreturns.ge, hreturns.le, hreturns.call⟩
  · intro hroom
    exact step?_eq hcode hsound fun hjump => target?_keep (by omega)
  · exact step?_eq hcode hsound fun _ => target?_wrap hcode hsound.ip
  · intro i hf
    exact ne_unrecognized_of_fetch hf

/-- Two calls: the first of them has been made. -/
theorem step_in_range_call : ∃ s : State, Reaches #[27, 5, 0, 0, 0, 27, 0, 0, 0, 0]
      (.start (.ofBytes [] none) .unlimited) s ∧ s.calls = [5] ∧
    step? Signed.keep? #[27, 5, 0, 0, 0, 27, 0, 0, 0, 0] s =
      some (step #[27, 5, 0, 0, 0, 27, 0, 0, 0, 0] s) := by
  have hs : Reaches #[27, 5, 0, 0, 0, 27, 0, 0, 0, 0] (.start (.ofBytes [] none) .unlimited)
      (step #[27, 5, 0, 0, 0, 27, 0, 0, 0, 0] (.start (.ofBytes [] none) .unlimited)).state :=
    .step .refl
  have hrange := step_in_range (by decide) hs
  exact ⟨_, hs, by decide +kernel, hrange.2.2.2.2.1 (by decide)⟩

/-- In code of almost 2^63 bytes, jumps as far as possible lead to one whose sum is beyond the signed
numbers. -/
theorem sum_out_of_range :
    let code := jumpCode 2147483640 2147483635 4294967312
    code.size < 2 ^ 63 ∧
      ∃ s, Reaches code (.start (.ofBytes [] none) .unlimited) s ∧ s.ip = 2 ^ 63 - 128 ∧
        step? Signed.keep? code s = none := by
  intro code
  have hd : (2147483640 : Offset).toInt = 5 + (2147483635 : Nat) := by decide
  have hsize : code.size < 2 ^ 63 := by
    rw [size_jumpCode]
    decide
  obtain ⟨s, hs, hip⟩ := reaches_jumpCode hd (Nat.le_refl 4294967312) (.ofBytes [] none) .unlimited
  have hfetch : fetch code s.ip = .ok (.jump .always 2147483640) := by
    rw [hip]
    exact fetch_jumpCode _ _ (Nat.le_refl 4294967312)
  have hplace : s.ip = 2 ^ 63 - 128 := hip.trans (by decide)
  have hlow : s.ip < 2 ^ 63 := by
    rw [hplace]
    decide
  have hsum : 2 ^ 63 ≤ (s.ip : Int) + (2147483640 : Offset).toInt := by
    rw [hplace, hd]
    decide
  exact ⟨hsize, s, hs, hplace, step?_eq_none hfetch hlow (target?_keep_none hlow hsum)⟩

end StackMachine
