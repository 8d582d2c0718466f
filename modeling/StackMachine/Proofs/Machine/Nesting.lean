import Mathlib.Algebra.Order.Ring.Nat
import StackMachine.Proofs.Machine.Control
import StackMachine.Proofs.Machine.Execution

/-!
# StackMachine.Proofs.Machine.Nesting

Calls and returns match.

* `step_of_call`, `step_of_ret`: what a call and a return do to control.
* `call_or_ret_or_other`: the three kinds of steps that this takes.
* `callsAfter`, `calls_step`: the return addresses after a step, which depend on no value.
* `Pending`: a call that has not returned yet; `Completes`: the step that returns from it.
* `pending_step`, `pending_run`: a call stays pending until a step completes it.
* `completes_first`: where the depth is first that of the caller again, a step has completed the
  call.
* `call_returns`: all this for a call that is made.
-/

namespace StackMachine

/-- The return addresses after a step that goes on. Where it was made and what they were before is
all that they depend on. -/
def callsAfter (code : Code) (ip : Nat) (calls : List Nat) : List Nat :=
  match fetch code ip with
  | .ok (.jump .call _) => (ip + 5) :: calls
  | .ok (.plain .ret) => calls.tail
  | _ => calls

section Step

variable {code : Code} {s : State}

theorem callsAfter_of_call {ip : Nat} {calls : List Nat} {d : Offset}
    (h : fetch code ip = .ok (.jump .call d)) : callsAfter code ip calls = (ip + 5) :: calls := by
  rw [callsAfter, h]

theorem callsAfter_of_ret {ip : Nat} {calls : List Nat} (h : fetch code ip = .ok (.plain .ret)) :
    callsAfter code ip calls = calls.tail := by
  rw [callsAfter, h]

theorem callsAfter_of_other {ip : Nat} {calls : List Nat}
    (hcall : ∀ d, fetch code ip ≠ .ok (.jump .call d))
    (hret : fetch code ip ≠ .ok (.plain .ret)) : callsAfter code ip calls = calls := by
  unfold callsAfter
  generalize fetch code ip = fetched at hcall hret ⊢
  cases fetched with
  | error f => rfl
  | ok i =>
    cases i with
    | plain op =>
      cases op with
      | ret => exact absurd rfl hret
      | _ => rfl
    | jump k d =>
      cases k with
      | call => exact absurd rfl (hcall d)
      | _ => rfl
    | _ => rfl

theorem call_or_ret_or_other (code : Code) (ip : Nat) :
    (∃ d, fetch code ip = .ok (.jump .call d)) ∨ fetch code ip = .ok (.plain .ret) ∨
      (∀ d, fetch code ip ≠ .ok (.jump .call d)) ∧ fetch code ip ≠ .ok (.plain .ret) := by
  by_cases hcall : ∃ d, fetch code ip = .ok (.jump .call d)
  · exact .inl hcall
  · by_cases hret : fetch code ip = .ok (.plain .ret)
    · exact .inr (.inl hret)
    · exact .inr (.inr ⟨fun d hf => hcall ⟨d, hf⟩, hret⟩)

theorem step_of_call {d : Offset} (h : fetch code s.ip = .ok (.jump .call d)) :
    (step code s).outcome = .running ∧
        (step code s).state.calls = (s.ip + 5) :: s.calls ∨
      (step code s).outcome ≠ .running ∧ (step code s).state = s := by
  have hstep : (step code s).outcome = (s.enter code d ((s.ip + 5) :: s.calls)).1 ∧
      (step code s).state = (s.enter code d ((s.ip + 5) :: s.calls)).2 := by
    rw [← State.transfer_call]
    exact step_of_fetch h
  rw [hstep.1, hstep.2]
  cases hj : jumpTarget? code s.ip d with
  | some t => exact .inl (by simp only [State.enter, hj, and_self])
  | none =>
    rw [State.enter_of_none _ hj]
    exact .inr ⟨by simp, rfl⟩

theorem step_of_ret (h : fetch code s.ip = .ok (.plain .ret)) :
    (step code s).outcome = .running ∧
        (∃ t ts, s.calls = t :: ts ∧ (step code s).state = { s with ip := t, calls := ts }) ∨
      (step code s).outcome ≠ .running ∧ (step code s).state = s := by
  have hstep : (step code s).outcome = (s.transfer code (s.ip + 1) .ret).1 ∧
      (step code s).state = (s.transfer code (s.ip + 1) .ret).2 := step_of_fetch h
  rw [hstep.1, hstep.2]
  cases hc : s.calls with
  | nil => exact .inr (by simp [State.transfer, hc, State.stay])
  | cons t ts => exact .inl (by simp [State.transfer, hc, State.goto])

/-- All instructions but two leave the return addresses alone. -/
theorem calls_step_of_other (hcall : ∀ d, fetch code s.ip ≠ .ok (.jump .call d))
    (hret : fetch code s.ip ≠ .ok (.plain .ret)) : (step code s).state.calls = s.calls := by
  cases hf : fetch code s.ip with
  | error f => rw [(step_of_fetch_error hf).2]
  | ok i =>
    have hgoes := goes_step hf
    generalize (step code s).outcome = o at hgoes
    generalize (step code s).state.ip = ip at hgoes
    generalize (step code s).state.calls = calls at hgoes ⊢
    cases hgoes with
    | next => rfl
    | jump _ _ _ _ => rfl
    | call hi _ => exact absurd (hi ▸ hf) (hcall _)
    | ret hi _ => exact absurd (hi ▸ hf) hret
    | halt _ => rfl
    | leave _ _ _ => rfl
    | fault _ => rfl

theorem calls_step (h : (step code s).outcome = .running) :
    (step code s).state.calls = callsAfter code s.ip s.calls := by
  rcases call_or_ret_or_other code s.ip with ⟨d, hf⟩ | hf | ⟨hcall, hret⟩
  · rw [callsAfter_of_call hf]
    rcases step_of_call hf with ⟨-, hcalls⟩ | ⟨hended, -⟩
    · exact hcalls
    · exact absurd h hended
  · rw [callsAfter_of_ret hf]
    rcases step_of_ret hf with ⟨-, t, ts, hcalls, hstate⟩ | ⟨hended, -⟩
    · rw [hstate, hcalls, List.tail_cons]
    · exact absurd h hended
  · rw [callsAfter_of_other hcall hret, calls_step_of_other hcall hret]

/-- A step that ends a run leaves the return addresses alone. -/
theorem calls_step_of_ended (h : (step code s).outcome ≠ .running) :
    (step code s).state.calls = s.calls := by
  rcases call_or_ret_or_other code s.ip with ⟨d, hf⟩ | hf | ⟨hcall, hret⟩
  · rcases step_of_call hf with ⟨hruns, -⟩ | ⟨-, hstate⟩
    · exact absurd hruns h
    · rw [hstate]
  · rcases step_of_ret hf with ⟨hruns, -⟩ | ⟨-, hstate⟩
    · exact absurd hruns h
    · rw [hstate]
  · exact calls_step_of_other hcall hret

end Step

/-- A call that was made with the return addresses `caller` and leads back to `a` has not returned
yet. Calls that were made since are in front. -/
def Pending (caller : List Nat) (a : Nat) (s : State) : Prop :=
  ∃ inner, s.calls = inner ++ a :: caller

/-- The step returns from a call that was made with the return addresses `caller`, to `a`. -/
structure Completes (code : Code) (s : State) (caller : List Nat) (a : Nat) : Prop where
  fetched : fetch code s.ip = .ok (.plain .ret)
  goes : (step code s).outcome = .running
  calls : (step code s).state.calls = caller
  ip : (step code s).state.ip = a

section Run

variable {code : Code} {s : State} {caller : List Nat} {a n : Nat}

theorem Pending.ne_length (h : Pending caller a s) : s.calls.length ≠ caller.length := by
  obtain ⟨inner, h⟩ := h
  rw [h, List.length_append, List.length_cons]
  omega

/-- One step of a pending call. Only a return can complete it, and only where no other call is
pending in it. -/
theorem pending_step (code : Code) (h : Pending caller a s) :
    Pending caller a (step code s).state ∨ Completes code s caller a := by
  obtain ⟨inner, hinner⟩ := h
  by_cases hruns : (step code s).outcome = .running
  · rcases call_or_ret_or_other code s.ip with ⟨d, hf⟩ | hf | ⟨hcall, hret⟩
    · rcases step_of_call hf with ⟨-, hcalls⟩ | ⟨hended, -⟩
      · exact .inl ⟨(s.ip + 5) :: inner, by rw [hcalls, hinner, List.cons_append]⟩
      · exact absurd hruns hended
    · rcases step_of_ret hf with ⟨-, t, ts, hcalls, hstate⟩ | ⟨hended, -⟩
      · rw [hinner] at hcalls
        cases inner with
        | nil =>
          obtain ⟨rfl, rfl⟩ := List.cons.inj hcalls
          exact .inr ⟨hf, hruns, by rw [hstate], by rw [hstate]⟩
        | cons b inner =>
          obtain ⟨rfl, rfl⟩ := List.cons.inj hcalls
          exact .inl ⟨inner, by rw [hstate]; rfl⟩
      · exact absurd hruns hended
    · exact .inl ⟨inner, by rw [calls_step_of_other hcall hret, hinner]⟩
  · exact .inl ⟨inner, by rw [calls_step_of_ended hruns, hinner]⟩

theorem pending_run (h : Pending caller a s)
    (hdepth : ∀ m ≤ n, (run code m s).2.calls.length ≠ caller.length) :
    Pending caller a (run code n s).2 := by
  induction n with
  | zero => exact h
  | succ n ih =>
    have hpending := ih fun m hm => hdepth m (Nat.le_succ_of_le hm)
    have hlast := hdepth (n + 1) (Nat.le_refl _)
    by_cases hruns : (run code n s).1 = .running
    · rw [run_next hruns] at hlast ⊢
      rcases pending_step code hpending with hstep | hstep
      · exact hstep
      · exact absurd (congrArg List.length hstep.calls) hlast
    · rw [run_ended hruns]
      exact hpending

/-- The first time that the depth is that of the caller again, the last step has completed the
call. -/
theorem completes_first (h : Pending caller a s)
    (hdepth : ∀ m < n, (run code m s).2.calls.length ≠ caller.length)
    (hfirst : (run code n s).2.calls.length = caller.length) :
    ∃ m, n = m + 1 ∧ (run code m s).1 = .running ∧
      (run code n s).2 = (step code (run code m s).2).state ∧
      Completes code (run code m s).2 caller a := by
  cases n with
  | zero => exact absurd hfirst h.ne_length
  | succ m =>
    have hpending := pending_run h fun k hk => hdepth k (Nat.lt_succ_of_le hk)
    by_cases hruns : (run code m s).1 = .running
    · rw [run_next hruns] at hfirst ⊢
      rcases pending_step code hpending with hstep | hstep
      · exact absurd hfirst hstep.ne_length
      · exact ⟨m, rfl, hruns, rfl, hstep⟩
    · rw [run_ended hruns] at hfirst
      exact absurd hfirst hpending.ne_length

end Run

/-- A call that is made stays pending, with the return addresses of its caller unchanged below its
own, until the depth is that of the caller again. The step that brings it there first is a return;
it restores the return addresses of the caller and goes on behind the call. No step but a call or a
return changes return addresses, and no value that is computed has a part in what they become. -/
theorem call_returns {code : Code} {s : State} {d : Offset}
    (hcall : fetch code s.ip = .ok (.jump .call d)) (hmade : (step code s).outcome = .running) :
    let later n := run code n (step code s).state
    (∀ n, (∀ m ≤ n, (later m).2.calls.length ≠ s.calls.length) →
        ∃ inner, (later n).2.calls = inner ++ (s.ip + 5) :: s.calls) ∧
      (∀ n, (∀ m < n, (later m).2.calls.length ≠ s.calls.length) →
        (later n).2.calls.length = s.calls.length →
          (later n).2.calls = s.calls ∧ (later n).2.ip = s.ip + 5 ∧
          ∃ m, n = m + 1 ∧ (later m).1 = .running ∧
            fetch code (later m).2.ip = .ok (.plain .ret) ∧
            (later n).2 = (step code (later m).2).state) ∧
      ∀ t, ((step code t).outcome = .running →
          (step code t).state.calls = callsAfter code t.ip t.calls) ∧
        ((step code t).outcome ≠ .running → (step code t).state.calls = t.calls) := by
  intro later
  have hpending : Pending s.calls (s.ip + 5) (step code s).state := by
    rcases step_of_call hcall with ⟨-, hcalls⟩ | ⟨hended, -⟩
    · exact ⟨[], hcalls⟩
    · exact absurd hmade hended
  refine ⟨?_, ?_, ?_⟩
  · intro n hdepth
    exact pending_run hpending hdepth
  · intro n hdepth hfirst
    obtain ⟨m, rfl, hruns, hstate, hcompletes⟩ := completes_first hpending hdepth hfirst
    exact ⟨hstate ▸ hcompletes.calls, hstate ▸ hcompletes.ip, m, rfl, hruns, hcompletes.fetched,
      hstate⟩
  · intro t
    exact ⟨calls_step, calls_step_of_ended⟩

/-- A call that makes a call of its own before it returns. -/
theorem call_returns_nested :
    let code : Code := #[27, 6, 0, 0, 0, 11, 27, 6, 0, 0, 0, 10, 10]
    let s := State.start (.ofBytes [] none) .unlimited
    let later n := run code n (step code s).state
    (∃ inner, (later 2).2.calls = inner ++ (s.ip + 5) :: s.calls) ∧
      (later 3).2.calls = s.calls ∧ (later 3).2.ip = s.ip + 5 := by
  intro code s later
  have hcall : fetch code s.ip = .ok (.jump .call 6) := by decide +kernel
  have hmade : (step code s).outcome = .running := by decide +kernel
  obtain ⟨hpending, hfirst, -⟩ := call_returns hcall hmade
  obtain ⟨hcalls, hip, -⟩ := hfirst 3 (by decide +kernel) (by decide +kernel)
  exact ⟨hpending 2 (by decide +kernel), hcalls, hip⟩

end StackMachine
