import Mathlib.Algebra.Order.Ring.Nat
import StackMachine.Proofs.Machine.Control
import StackMachine.Proofs.Machine.Execution

/-!
# StackMachine.Proofs.Machine.Underneath

What lies under the operands and under the return addresses of a run plays no part in it.

* `Store.over`, `Effect.over`, `State.over`: the same with more words underneath, and more return
  addresses.
* `Outcome.Supplied`: an outcome that does not tell where one of the stacks ends.
* `read_over`, `binary_over`, `popRam_over` and the others: each kind of effect over more words;
  `perform_over` collects them.
* `transfer_over`, `step_over`, `run_over`: a move of control, a step and a run over more words and
  return addresses.
* `underneath_untouched`: every step of a run that none of the stacks was too short for.
-/

namespace StackMachine

/-- The same store with words underneath those on its stack. -/
def Store.over (s : Store) (words : List Word) : Store := { s with data := s.data ++ words }

def Effect.over {J : Type} (e : Effect J) (words : List Word) : Effect J :=
  { e with store := e.store.over words }

/-- The same state with words and return addresses underneath its own. -/
def State.over (s : State) (words : List Word) (returns : List Nat) : State :=
  ⟨s.ip, s.calls ++ returns, s.store.over words⟩

/-- Neither the operands nor the return addresses ran out. -/
structure Outcome.Supplied (o : Outcome) : Prop where
  data : o ≠ .failed .dataStackUnderflow
  calls : o ≠ .failed .callStackUnderflow

theorem Outcome.supplied_running : Outcome.running.Supplied := ⟨by simp, by simp⟩

instance (o : Outcome) : Decidable o.Supplied :=
  decidable_of_iff (o ≠ .failed .dataStackUnderflow ∧ o ≠ .failed .callStackUnderflow)
    ⟨fun h => ⟨h.1, h.2⟩, fun h => ⟨h.data, h.calls⟩⟩

section Effects

variable {J : Type} (s : Store) (words : List Word)

theorem read_over : Effect.read (s.over words) = (Effect.read s : Effect J).over words := by
  simp only [Effect.read, Store.over]
  cases s.input.next.1 <;> rfl

theorem pushRam_over (a : Int) :
    Effect.pushRam a (s.over words) = (Effect.pushRam a s : Effect J).over words := by
  simp only [Effect.pushRam, Store.over]
  cases s.ram.load a <;> rfl

variable {s} {words}

theorem print_over (h : (Effect.print s : Effect J).action ≠ .fault .dataStackUnderflow) :
    Effect.print (s.over words) = (Effect.print s : Effect J).over words := by
  obtain ⟨regs, data, ram, input, output⟩ := s
  cases data with
  | nil => exact absurd rfl h
  | cons w ds =>
    simp only [Effect.print, Store.over, List.cons_append]
    cases (output.write w.line).1 <;> rfl

theorem unary_over {f : Word → Word}
    (h : (Effect.unary f s : Effect J).action ≠ .fault .dataStackUnderflow) :
    Effect.unary f (s.over words) = (Effect.unary f s : Effect J).over words := by
  obtain ⟨regs, data, ram, input, output⟩ := s
  cases data with
  | nil => exact absurd rfl h
  | cons w ds => rfl

theorem binary_over {f : Word → Word → Word}
    (h : (Effect.binary f s : Effect J).action ≠ .fault .dataStackUnderflow) :
    Effect.binary f (s.over words) = (Effect.binary f s : Effect J).over words := by
  obtain ⟨regs, data, ram, input, output⟩ := s
  match data with
  | [] => exact absurd rfl h
  | [r] => exact absurd rfl h
  | r :: l :: ds => rfl

theorem drop_over (h : (Effect.drop s : Effect J).action ≠ .fault .dataStackUnderflow) :
    Effect.drop (s.over words) = (Effect.drop s : Effect J).over words := by
  obtain ⟨regs, data, ram, input, output⟩ := s
  cases data with
  | nil => exact absurd rfl h
  | cons w ds => rfl

theorem popReg_over {r : Reg}
    (h : (Effect.popReg r s : Effect J).action ≠ .fault .dataStackUnderflow) :
    Effect.popReg r (s.over words) = (Effect.popReg r s : Effect J).over words := by
  obtain ⟨regs, data, ram, input, output⟩ := s
  cases data with
  | nil => exact absurd rfl h
  | cons w ds => rfl

theorem popRam_over {a : Int}
    (h : (Effect.popRam a s : Effect J).action ≠ .fault .dataStackUnderflow) :
    Effect.popRam a (s.over words) = (Effect.popRam a s : Effect J).over words := by
  obtain ⟨regs, data, ram, input, output⟩ := s
  cases data with
  | nil => exact absurd rfl h
  | cons w ds =>
    simp only [Effect.popRam, Store.over, List.cons_append]
    cases ram.store a w <;> rfl

theorem branch_over {c : Cond} {t : J}
    (h : (Effect.branch c t s).action ≠ .fault .dataStackUnderflow) :
    Effect.branch c t (s.over words) = (Effect.branch c t s).over words := by
  obtain ⟨regs, data, ram, input, output⟩ := s
  match data with
  | [] => exact absurd rfl h
  | [r] => exact absurd rfl h
  | r :: l :: ds => rfl

theorem perform_over {i : Instr J} (h : (i.perform s).action ≠ .fault .dataStackUnderflow) :
    i.perform (s.over words) = (i.perform s).over words := by
  cases i with
  | plain op =>
    cases op with
    | input => exact read_over s words
    | output => exact print_over h
    | arith op => exact binary_over h
    | func op => exact unary_over h
    | ret => rfl
    | halt => rfl
    | drop => exact drop_over h
  | imm w => rfl
  | reg m r =>
    cases m with
    | push => rfl
    | pop => exact popReg_over h
  | held m r =>
    cases m with
    | push => exact pushRam_over s words _
    | pop => exact popRam_over h
  | fixed m a =>
    cases m with
    | push => exact pushRam_over s words _
    | pop => exact popRam_over h
  | jump k t =>
    cases k with
    | always => rfl
    | call => rfl
    | when c => exact branch_over h

end Effects

section Steps

variable {code : Code} {s : State} (words : List Word) (returns : List Nat)

theorem transfer_over {following : Nat} {action : Action Offset}
    (h : (s.transfer code following action).1 ≠ .failed .callStackUnderflow) :
    (s.over words returns).transfer code following action =
      ((s.transfer code following action).1,
        (s.transfer code following action).2.over words returns) := by
  cases action with
  | next => rfl
  | jump d =>
    simp only [State.transfer, State.over]
    cases jumpTarget? code s.ip d <;> rfl
  | call d =>
    simp only [State.transfer, State.over]
    cases jumpTarget? code s.ip d <;> rfl
  | ret =>
    obtain ⟨ip, calls, store⟩ := s
    cases calls with
    | nil => exact absurd rfl h
    | cons t ts => rfl
  | halt => rfl
  | fault f => rfl

/-- A step for which neither stack is too short does the same over more words and return
addresses. -/
theorem step_over (h : (step code s).outcome.Supplied) :
    (step code (s.over words returns)).outcome = (step code s).outcome ∧
      (step code (s.over words returns)).state = (step code s).state.over words returns := by
  cases hf : fetch code s.ip with
  | error f =>
    obtain ⟨houtcome, hstate⟩ := step_of_fetch_error hf
    obtain ⟨houtcome', hstate'⟩ := step_of_fetch_error (s := s.over words returns) hf
    rw [houtcome', hstate', houtcome, hstate]
    exact ⟨rfl, rfl⟩
  | ok i =>
    obtain ⟨houtcome, hstate⟩ := step_of_fetch hf
    obtain ⟨houtcome', hstate'⟩ := step_of_fetch (s := s.over words returns) hf
    rw [houtcome] at h
    have hfinds : (i.perform s.store).action ≠ .fault .dataStackUnderflow := by
      intro hshort
      rw [hshort] at h
      exact h.data rfl
    have hperform : i.perform (s.over words returns).store = (i.perform s.store).over words :=
      perform_over hfinds
    have hmoved := transfer_over words returns h.calls
    have hends := congrArg Prod.fst hmoved
    have hstands := congrArg Prod.snd hmoved
    rw [houtcome', hstate', houtcome, hstate, hperform]
    exact ⟨hends, hstands⟩

theorem run_over {n : Nat} (h : (run code n s).1.Supplied) :
    run code n (s.over words returns) =
      ((run code n s).1, (run code n s).2.over words returns) := by
  -- As long as both runs go on, they only differ in what is underneath.
  induction n generalizing s with
  | zero => rfl
  | succ n ih =>
    by_cases hruns : (step code s).outcome = .running
    · rw [run_of_running hruns] at h
      obtain ⟨houtcome, hstate⟩ := step_over words returns (hruns ▸ Outcome.supplied_running)
      rw [run_of_running (houtcome.trans hruns), run_of_running hruns, hstate]
      exact ih h
    · rw [run_of_ended hruns] at h
      obtain ⟨houtcome, hstate⟩ := step_over words returns h
      rw [run_of_ended (houtcome ▸ hruns), run_of_ended hruns, houtcome, hstate]

end Steps

theorem supplied_of_le {code : Code} {s : State} {m n : Nat} (h : (run code n s).1.Supplied)
    (hmn : m ≤ n) : (run code m s).1.Supplied := by
  by_cases hruns : (run code m s).1 = .running
  · rw [hruns]
    exact Outcome.supplied_running
  · rwa [run_stays hruns hmn] at h

/-- If neither stack is too short for a run, then the run with any words underneath its data stack
and any return addresses underneath its call stack is the same, step by step and with the same
outcome: `ip`, the registers, memory and the channels are what they are without them, and both
stacks have on top what they have without them, and then what was put underneath. -/
theorem underneath_untouched {code : Code} {s : State} {n : Nat}
    (h : (run code n s).1.Supplied) (words : List Word) (returns : List Nat) :
    ∀ m ≤ n, run code m (s.over words returns) =
      ((run code m s).1, (run code m s).2.over words returns) := by
  intro m hm
  exact run_over words returns (supplied_of_le h hm)

/-- A subroutine that takes a word of its caller, gives one back and returns to it, with more of
both kinds underneath. -/
theorem underneath_untouched_subroutine :
    let code : Code := #[17, 0, 13, 0, 10, 11]
    let s : State := ⟨0, [5], (Store.fresh (.ofBytes [] none) .unlimited).push ⟨7⟩⟩
    let ended := run code 4 (s.over [⟨1⟩, ⟨2⟩] [3])
    (run code 4 s).1.Supplied ∧ ended.1 = .halted ∧
      ended.2.store.data = [⟨7⟩, ⟨1⟩, ⟨2⟩] ∧ ended.2.calls = [3] := by
  intro code s ended
  have hsupplied : (run code 4 s).1.Supplied := by decide +kernel
  have hended : ended = ((run code 4 s).1, (run code 4 s).2.over [⟨1⟩, ⟨2⟩] [3]) :=
    underneath_untouched hsupplied [⟨1⟩, ⟨2⟩] [3] 4 (Nat.le_refl 4)
  rw [hended]
  exact ⟨hsupplied, by decide +kernel, by decide +kernel, by decide +kernel⟩

end StackMachine
