import StackMachine.Proofs.Machine.Fetch

/-!
# StackMachine.Proofs.Machine.Control

What a step does to control.

* `Jump.taken`: whether a jump leaves its place.
* `State.enter`: what becomes of control at a jump that is taken, called or not.
* `Instr.Asks`: what an instruction may ask of control; `asks_perform` says that it asks no more.
* `Goes`: all ways in which control goes on from a fetched instruction, with what is known in each.
* `goes_step`: a step goes on in one of them.
* `transfer_store`, `store_step`: moving control has nothing to do with the store.
-/

namespace StackMachine

/-- A conditional jump looks at the two topmost values, and is not taken where there are none. -/
def Jump.taken : Jump → List Word → Bool
  | always, _ => true
  | call, _ => true
  | when c, r :: l :: _ => c.holds l r
  | when _, _ => false

section Target

variable {code : Code} {a t : Nat} {d : Offset}

theorem jumpTarget?_eq_some (h : jumpTarget? code a d = some t) :
    (a : Int) + d.toInt = t := by
  simp only [jumpTarget?] at h
  split at h
  · cases h
    omega
  · cases h

theorem jumpTarget?_lt (h : jumpTarget? code a d = some t) : t < code.size := by
  simp only [jumpTarget?] at h
  split at h
  · cases h
    omega
  · cases h

theorem jumpTarget?_eq_none (h : jumpTarget? code a d = none) :
    (a : Int) + d.toInt < 0 ∨ code.size ≤ (a : Int) + d.toInt := by
  simp only [jumpTarget?] at h
  split at h
  · cases h
  · omega

end Target

namespace State

/-- Goes to the target of a jump with given return addresses, or stays if it is not in the code. -/
def enter (s : State) (code : Code) (d : Offset) (calls : List Nat) : Outcome × State :=
  match jumpTarget? code s.ip d with
  | some t => (.running, { s with ip := t, calls := calls })
  | none => s.stay .invalidInstructionPointer

theorem transfer_jump (s : State) (code : Code) (following : Nat) (d : Offset) :
    s.transfer code following (.jump d) = s.enter code d s.calls := by
  simp only [transfer, enter]
  cases jumpTarget? code s.ip d <;> rfl

theorem transfer_call (s : State) (code : Code) (following : Nat) (d : Offset) :
    s.transfer code following (.call d) = s.enter code d (following :: s.calls) := by
  simp only [transfer, enter]
  cases jumpTarget? code s.ip d <;> rfl

theorem enter_of_none {s : State} {code : Code} {d : Offset} (calls : List Nat)
    (h : jumpTarget? code s.ip d = none) :
    s.enter code d calls = (.failed .invalidInstructionPointer, s) := by
  simp [enter, h, stay]

end State

/-- The faults of an instruction that was fetched, apart from leaving the code. -/
inductive Fault.OfInstr : Fault → Prop where
  | dataStack : OfInstr .dataStackUnderflow
  | callStack : OfInstr .callStackUnderflow
  | ram : OfInstr .invalidRamAddress
  | io (e : IoError) : OfInstr (.io e)

section Asks

variable {J : Type}

inductive Instr.Asks (i : Instr J) (data : List Word) : Action J → Prop where
  | next : Asks i data .next
  | jump {k : Jump} {t : J} : i = .jump k t → k ≠ .call → k.taken data = true →
      Asks i data (.jump t)
  | call {t : J} : i = .jump .call t → Asks i data (.call t)
  | ret : i = .plain .ret → Asks i data .ret
  | halt : i = .plain .halt → Asks i data .halt
  | fault {f : Fault} : f.OfInstr → Asks i data (.fault f)

theorem asks_pushRam (i : Instr J) (a : Int) (s : Store) :
    i.Asks s.data (Effect.pushRam a s : Effect J).action := by
  unfold Effect.pushRam Ram.load
  split
  · exact .next
  · rename_i f h
    split at h <;> cases h
    exact .fault .ram

theorem asks_popRam (i : Instr J) (a : Int) (s : Store) :
    i.Asks s.data (Effect.popRam a s : Effect J).action := by
  unfold Effect.popRam Ram.store
  split
  · exact .fault .dataStack
  · split
    · exact .next
    · rename_i f h
      split at h <;> cases h
      exact .fault .ram

theorem asks_perform (i : Instr J) (s : Store) : i.Asks s.data (i.perform s).action := by
  cases i with
  | plain op =>
    cases op with
    | input =>
      simp only [Instr.perform, Effect.read]
      split
      · exact .next
      · exact .next
      · exact .next
      · exact .fault (.io _)
    | output =>
      simp only [Instr.perform, Effect.print]
      split
      · exact .fault .dataStack
      · split
        · exact .next
        · exact .fault (.io _)
    | arith op =>
      simp only [Instr.perform, Effect.binary]
      split
      · exact .next
      · exact .fault .dataStack
    | func op =>
      simp only [Instr.perform, Effect.unary]
      split
      · exact .fault .dataStack
      · exact .next
    | ret => exact .ret rfl
    | halt => exact .halt rfl
    | drop =>
      simp only [Instr.perform, Effect.drop]
      split
      · exact .fault .dataStack
      · exact .next
  | imm w => exact .next
  | reg m r =>
    cases m with
    | push => exact .next
    | pop =>
      simp only [Instr.perform, Effect.popReg]
      split
      · exact .fault .dataStack
      · exact .next
  | held m r =>
    cases m with
    | push => exact asks_pushRam _ _ _
    | pop => exact asks_popRam _ _ _
  | fixed m a =>
    cases m with
    | push => exact asks_pushRam _ _ _
    | pop => exact asks_popRam _ _ _
  | jump k t =>
    cases k with
    | always => exact .jump rfl nofun rfl
    | call => exact .call rfl
    | when c =>
      simp only [Instr.perform, Effect.branch]
      split
      · rename_i r l rest h
        cases hc : c.holds l r with
        | true => exact .jump rfl nofun (by simpa [Jump.taken, h] using hc)
        | false => exact .next
      · exact .fault .dataStack

theorem Instr.jump_of_action {i : Instr J} {s : Store} {t : J}
    (h : (i.perform s).action = .jump t ∨ (i.perform s).action = .call t) :
    ∃ k, i = .jump k t := by
  have hasks := asks_perform i s
  rcases h with h | h
  · rw [h] at hasks
    cases hasks with
    | @jump k _ hi _ _ => exact ⟨k, hi⟩
  · rw [h] at hasks
    cases hasks with
    | call hi => exact ⟨.call, hi⟩

end Asks

/-- How control goes on from a state whose instruction was fetched: the outcome, `ip` and the
return addresses. -/
inductive Goes (code : Code) (s : State) (i : Instr Offset) : Outcome → Nat → List Nat → Prop where
  | next : Goes code s i .running (s.ip + i.size) s.calls
  | jump {k : Jump} {d : Offset} {t : Nat} : i = .jump k d → k ≠ .call →
      k.taken s.store.data = true → jumpTarget? code s.ip d = some t →
      Goes code s i .running t s.calls
  | call {d : Offset} {t : Nat} : i = .jump .call d → jumpTarget? code s.ip d = some t →
      Goes code s i .running t ((s.ip + i.size) :: s.calls)
  | ret {t : Nat} {ts : List Nat} : i = .plain .ret → s.calls = t :: ts →
      Goes code s i .running t ts
  | halt : i = .plain .halt → Goes code s i .halted s.ip s.calls
  | leave {k : Jump} {d : Offset} : i = .jump k d → k.taken s.store.data = true →
      jumpTarget? code s.ip d = none →
      Goes code s i (.failed .invalidInstructionPointer) s.ip s.calls
  | fault {f : Fault} : f.OfInstr → Goes code s i (.failed f) s.ip s.calls

theorem goes_step {code : Code} {s : State} {i : Instr Offset} (h : fetch code s.ip = .ok i) :
    Goes code s i (step code s).outcome (step code s).state.ip (step code s).state.calls := by
  obtain ⟨ho, hs⟩ := step_of_fetch h
  have hasks := asks_perform i s.store
  rw [ho, hs]
  generalize (i.perform s.store).action = asked at hasks ⊢
  cases hasks with
  | next => exact .next
  | @jump k d hi hk ht =>
    rw [State.transfer_jump, State.enter]
    cases hj : jumpTarget? code s.ip d with
    | some t => exact .jump hi hk ht hj
    | none => exact .leave hi ht hj
  | @call d hi =>
    rw [State.transfer_call, State.enter]
    cases hj : jumpTarget? code s.ip d with
    | some t => exact .call hi hj
    | none => exact .leave hi rfl hj
  | ret hi =>
    simp only [State.transfer]
    cases hc : s.calls with
    | nil =>
      have hstay : Goes code s i (.failed .callStackUnderflow) s.ip s.calls := .fault .callStack
      rw [hc] at hstay
      exact hstay
    | cons t ts => exact .ret hi hc
  | halt hi => exact .halt hi
  | fault hf => exact .fault hf

theorem transfer_store (s : State) (st : Store) (code : Code) (following : Nat)
    (a : Action Offset) :
    ({ s with store := st } : State).transfer code following a =
      ((s.transfer code following a).1, { (s.transfer code following a).2 with store := st }) := by
  obtain ⟨ip, calls, store⟩ := s
  cases a with
  | next => rfl
  | jump d =>
    simp only [State.transfer]
    cases jumpTarget? code ip d <;> rfl
  | call d =>
    simp only [State.transfer]
    cases jumpTarget? code ip d <;> rfl
  | ret => cases calls <;> rfl
  | halt => rfl
  | fault f => rfl

theorem store_transfer (s : State) (code : Code) (following : Nat) (a : Action Offset) :
    (s.transfer code following a).2.store = s.store :=
  congrArg (fun moved => moved.2.store) (transfer_store s s.store code following a)

theorem store_step {code : Code} {s : State} {i : Instr Offset} (h : fetch code s.ip = .ok i) :
    (step code s).state.store = (i.perform s.store).store := by
  rw [(step_of_fetch h).2, store_transfer]

theorem store_perform_jump {J : Type} (k : Jump) (t : J) (s : Store) :
    ((Instr.jump k t).perform s).store = s := by
  cases k with
  | always => rfl
  | call => rfl
  | when c =>
    simp only [Instr.perform, Effect.branch]
    split <;> rfl

/-- A jump that would leave the code fails and changes nothing. -/
theorem step_of_leave {code : Code} {s : State} {k : Jump} {d : Offset}
    (hf : fetch code s.ip = .ok (.jump k d)) (ht : k.taken s.store.data = true)
    (hnone : jumpTarget? code s.ip d = none) :
    (step code s).outcome = .failed .invalidInstructionPointer ∧ (step code s).state = s := by
  have haction : ((Instr.jump k d).perform s.store).action = .jump d ∨
      ((Instr.jump k d).perform s.store).action = .call d := by
    cases k with
    | always => exact .inl rfl
    | call => exact .inr rfl
    | when c =>
      left
      simp only [Instr.perform, Effect.branch]
      unfold Jump.taken at ht
      split <;> simp_all
  rw [(step_of_fetch hf).1, (step_of_fetch hf).2, store_perform_jump]
  rcases haction with h | h
  · rw [h, State.transfer_jump, State.enter_of_none _ hnone]
    exact ⟨rfl, rfl⟩
  · rw [h, State.transfer_call, State.enter_of_none _ hnone]
    exact ⟨rfl, rfl⟩

end StackMachine
