import StackMachine.Machine.Run

/-!
# StackMachine.Proofs.Machine.Execution

Steps one after another.

* `Reaches code s t`: steps lead from `s` to `t`, whatever each of them met. A step may follow one
  that failed.
* `run_succ`, `run_of_running`, `run_of_ended`: a run unfolded at its first step.
* `run_next`, `run_ended`: a run unfolded at its last step.
* `run_stays`: a run that has ended stays where it is.
* `reaches_run`, `run_failed`: a run only visits reached states, and where it fails, a step from a
  reached state fails.
-/

namespace StackMachine

deriving instance DecidableEq for Outcome

inductive Reaches (code : Code) (s : State) : State → Prop where
  | refl : Reaches code s s
  | step {t : State} : Reaches code s t → Reaches code s (step code t).state

theorem Reaches.head {code : Code} {s t : State}
    (h : Reaches code (StackMachine.step code s).state t) : Reaches code s t := by
  induction h with
  | refl => exact .step .refl
  | step _ ih => exact .step ih

theorem run_succ (code : Code) (n : Nat) (s : State) :
    run code (n + 1) s =
      match (step code s).outcome with
      | .running => run code n (step code s).state
      | ended => (ended, (step code s).state) := by
  simp only [run, walk]
  cases (step code s).outcome <;> rfl

theorem run_of_running {code : Code} {s : State} (h : (step code s).outcome = .running) (n : Nat) :
    run code (n + 1) s = run code n (step code s).state := by
  rw [run_succ, h]

theorem run_of_ended {code : Code} {s : State} (h : (step code s).outcome ≠ .running) (n : Nat) :
    run code (n + 1) s = ((step code s).outcome, (step code s).state) := by
  rw [run_succ]
  cases ho : (step code s).outcome with
  | running => exact absurd ho h
  | halted => rfl
  | failed f => rfl

theorem run_next {code : Code} {n : Nat} {s : State} (h : (run code n s).1 = .running) :
    run code (n + 1) s =
      ((step code (run code n s).2).outcome, (step code (run code n s).2).state) := by
  induction n generalizing s with
  | zero =>
    by_cases ho : (step code s).outcome = .running
    · rw [run_of_running ho, run, run, walk, walk, ho]
    · exact run_of_ended ho 0
  | succ n ih =>
    by_cases ho : (step code s).outcome = .running
    · rw [run_of_running ho] at h
      rw [run_of_running ho, ih h, run_of_running ho]
    · rw [run_of_ended ho] at h
      exact absurd h ho

theorem run_ended {code : Code} {n : Nat} {s : State} (h : (run code n s).1 ≠ .running) :
    run code (n + 1) s = run code n s := by
  induction n generalizing s with
  | zero => exact absurd rfl h
  | succ n ih =>
    by_cases ho : (step code s).outcome = .running
    · rw [run_of_running ho] at h
      rw [run_of_running ho, ih h, run_of_running ho]
    · rw [run_of_ended ho, run_of_ended ho]

theorem run_stays {code : Code} {m n : Nat} {s : State} (h : (run code m s).1 ≠ .running)
    (hmn : m ≤ n) : run code n s = run code m s := by
  induction hmn with
  | refl => rfl
  | step _ ih => rw [run_ended (by rwa [ih]), ih]

theorem reaches_run (code : Code) (n : Nat) (s : State) : Reaches code s (run code n s).2 := by
  induction n generalizing s with
  | zero => exact .refl
  | succ n ih =>
    rw [run_succ]
    cases (step code s).outcome with
    | running => exact (ih _).head
    | halted => exact .step .refl
    | failed f => exact .step .refl

/-- A run that fails does so in its last step, which starts from a reached state. -/
theorem run_failed {code : Code} {n : Nat} {s : State} {f : Fault}
    (h : (run code n s).1 = .failed f) :
    ∃ t, Reaches code s t ∧ (step code t).outcome = .failed f ∧
      (step code t).state = (run code n s).2 := by
  induction n generalizing s with
  | zero => cases h
  | succ n ih =>
    rw [run_succ] at h ⊢
    cases ho : (step code s).outcome with
    | running =>
      rw [ho] at h
      obtain ⟨t, ht, hf, hs⟩ := ih h
      exact ⟨t, ht.head, hf, hs⟩
    | halted =>
      rw [ho] at h
      cases h
    | failed g =>
      rw [ho] at h
      cases h
      exact ⟨s, .refl, ho, rfl⟩

end StackMachine
