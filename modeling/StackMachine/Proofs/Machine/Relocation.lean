import Mathlib.Algebra.Order.Ring.Nat
import StackMachine.Machine.Processor
import StackMachine.Proofs.Machine.Control
import StackMachine.Proofs.Machine.Execution

/-!
# StackMachine.Proofs.Machine.Relocation

Code does the same wherever it stands, with other code around it.

* `State.shift`: the same state further on; control and the return addresses move.
* `Outcome.Inside`: an outcome that does not tell where the code begins and ends.
* `fetch_embed`, `jumpTarget?_embed`, `transfer_embed`: what is fetched and where control goes in
  code with other code around it.
* `step_embed`, `run_embed`: a step and a run with an outcome of that kind are the same there.
-/

namespace StackMachine

/-- The same state so many bytes further on. -/
def State.shift (n : Nat) (s : State) : State :=
  { s with ip := s.ip + n, calls := s.calls.map fun t => t + n }

/-- Control did not leave the code, and no operand was unknown or cut off by its end. -/
structure Outcome.Inside (o : Outcome) : Prop where
  pointer : o ≠ .failed .invalidInstructionPointer
  operand : o ≠ .failed .commandArgument

theorem Outcome.inside_running : Outcome.running.Inside := ⟨by simp, by simp⟩

theorem Outcome.inside_halted : Outcome.halted.Inside := ⟨by simp, by simp⟩

section Embed

variable (before after : Code) {code : Code} {a : Nat}

theorem getElem?_embed (h : a < code.size) :
    (before ++ code ++ after)[a + before.size]? = code[a]? := by
  rw [Array.getElem?_append_left (by rw [Array.size_append]; omega),
    Array.getElem?_append_right (by omega), Nat.add_sub_cancel]

theorem extract_embed {b : Nat} (h : b ≤ code.size) :
    (before ++ code ++ after).extract (a + before.size) (b + before.size) = code.extract a b := by
  apply Array.ext_getElem?
  intro j
  rw [Array.getElem?_extract, Array.getElem?_extract, Array.size_append, Array.size_append]
  by_cases hj : j < b - a
  · have hplace : a + before.size + j = a + j + before.size := by omega
    rw [if_pos (by omega), if_pos (by omega), hplace,
      getElem?_embed before after (by omega)]
  · rw [if_neg (by omega), if_neg (by omega)]

theorem opcodeAt_embed {op : Opcode} (h : opcodeAt code a = .ok op) :
    opcodeAt (before ++ code ++ after) (a + before.size) = .ok op := by
  rw [opcodeAt_eq_ok_iff] at h ⊢
  rw [getElem?_embed before after (Array.getElem?_eq_some_iff.mp h).1, h]

theorem instrAt_embed {op : Opcode} {i : Instr Offset} (h : instrAt code a op = .ok i) :
    instrAt (before ++ code ++ after) (a + before.size) op = .ok i := by
  obtain ⟨hle, hdecode⟩ := instrAt_eq_ok_iff.mp h
  refine instrAt_eq_ok_iff.mpr ⟨?_, ?_⟩
  · rw [Array.size_append, Array.size_append]
    omega
  · rw [Nat.add_right_comm a before.size 1, Nat.add_right_comm a before.size op.size,
      extract_embed before after hle]
    exact hdecode

theorem fetch_embed {i : Instr Offset} (h : fetch code a = .ok i) :
    fetch (before ++ code ++ after) (a + before.size) = .ok i := by
  obtain ⟨hop, hi⟩ := fetch_eq_ok_iff.mp h
  exact fetch_eq_ok_iff.mpr ⟨opcodeAt_embed before after hop, instrAt_embed before after hi⟩

/-- What is no opcode is none in other code either. The other two faults of a fetch do tell where
the code ends: there may be more behind it. -/
theorem fetch_embed_error {f : Fault} (h : fetch code a = .error f)
    (hf : (Outcome.failed f).Inside) :
    fetch (before ++ code ++ after) (a + before.size) = .error f := by
  unfold fetch at h
  cases hop : opcodeAt code a with
  | ok op =>
    simp only [hop, instrAt] at h
    split at h
    · split at h
      · cases h
      · cases h
        exact absurd rfl hf.operand
    · cases h
      exact absurd rfl hf.operand
  | error g =>
    simp only [hop, Except.error.injEq] at h
    subst h
    unfold opcodeAt at hop
    split at hop
    · cases hop
      exact absurd rfl hf.pointer
    · rename_i b hb
      split at hop
      · rename_i hnone
        cases hop
        have hbyte := getElem?_embed before after (Array.getElem?_eq_some_iff.mp hb).1
        simp only [fetch, opcodeAt, hbyte, hb, hnone]
      · cases hop

theorem jumpTarget?_embed {t : Nat} {d : Offset} (h : jumpTarget? code a d = some t) :
    jumpTarget? (before ++ code ++ after) (a + before.size) d = some (t + before.size) := by
  have hsum := jumpTarget?_eq_some h
  have hlt := jumpTarget?_lt h
  simp only [jumpTarget?, Array.size_append]
  rw [if_pos (by omega)]
  congr 1
  omega

theorem enter_embed {s : State} {d : Offset} {calls : List Nat}
    (h : (s.enter code d calls).1.Inside) :
    (s.shift before.size).enter (before ++ code ++ after) d
        (calls.map fun t => t + before.size) =
      ((s.enter code d calls).1, (s.enter code d calls).2.shift before.size) := by
  cases hj : jumpTarget? code s.ip d with
  | none =>
    rw [State.enter_of_none calls hj] at h
    exact absurd rfl h.pointer
  | some t =>
    have hmoved : jumpTarget? (before ++ code ++ after) (s.shift before.size).ip d =
        some (t + before.size) := jumpTarget?_embed before after hj
    simp only [State.enter, hj, hmoved]
    rfl

theorem transfer_embed {s : State} {following : Nat} {action : Action Offset}
    (h : (s.transfer code following action).1.Inside) :
    (s.shift before.size).transfer (before ++ code ++ after) (following + before.size) action =
      ((s.transfer code following action).1,
        (s.transfer code following action).2.shift before.size) := by
  cases action with
  | next => rfl
  | jump d =>
    rw [State.transfer_jump] at h ⊢
    rw [State.transfer_jump]
    exact enter_embed before after h
  | call d =>
    rw [State.transfer_call] at h ⊢
    rw [State.transfer_call]
    exact enter_embed before after h
  | ret =>
    obtain ⟨ip, calls, store⟩ := s
    cases calls <;> rfl
  | halt => rfl
  | fault f => rfl

/-- A step whose outcome does not tell where its code ends is the same with other code around it. -/
theorem step_embed {s : State} (h : (step code s).outcome.Inside) :
    (step (before ++ code ++ after) (s.shift before.size)).outcome = (step code s).outcome ∧
      (step (before ++ code ++ after) (s.shift before.size)).state =
        (step code s).state.shift before.size := by
  cases hf : fetch code s.ip with
  | error f =>
    obtain ⟨houtcome, hstate⟩ := step_of_fetch_error hf
    rw [houtcome] at h ⊢
    obtain ⟨houtcome', hstate'⟩ := step_of_fetch_error (s := s.shift before.size)
      (fetch_embed_error before after hf h)
    rw [houtcome', hstate', hstate]
    exact ⟨rfl, rfl⟩
  | ok i =>
    obtain ⟨houtcome, hstate⟩ := step_of_fetch hf
    obtain ⟨houtcome', hstate'⟩ := step_of_fetch (s := s.shift before.size)
      (fetch_embed before after hf)
    rw [houtcome] at h
    have hmoved := transfer_embed before after h
    have hfollowing : (s.shift before.size).ip + i.size = s.ip + i.size + before.size :=
      Nat.add_right_comm _ _ _
    have hends := congrArg Prod.fst hmoved
    have hstands := congrArg Prod.snd hmoved
    rw [houtcome', hstate', houtcome, hstate, hfollowing]
    exact ⟨hends, hstands⟩

/-- As many steps, one after another, until the run ends. -/
theorem run_embed {n : Nat} {s : State} (h : (run code n s).1.Inside) :
    run (before ++ code ++ after) n (s.shift before.size) =
      ((run code n s).1, (run code n s).2.shift before.size) := by
  induction n generalizing s with
  | zero => rfl
  | succ n ih =>
    rw [run_succ] at h
    rw [run_succ, run_succ]
    have hstep : (step code s).outcome.Inside := by
      cases ho : (step code s).outcome with
      | running => exact Outcome.inside_running
      | halted => exact Outcome.inside_halted
      | failed f =>
        rw [ho] at h
        exact h
    obtain ⟨houtcome, hstate⟩ := step_embed before after hstep
    rw [houtcome, hstate]
    cases ho : (step code s).outcome with
    | running =>
      rw [ho] at h
      exact ih h
    | halted => rfl
    | failed f => rfl

end Embed

/-- Code can be moved and set between other code. A step that goes on, halts or fails without a
look at where the code ends does the same there, and so does a run of any number of steps: the
outcome is the same, and the state is the same but for control and the return addresses, which are
moved with the code. -/
theorem code_relocates (before code after : Code) (s : State) :
    ((step code s).outcome.Inside →
        (step (before ++ code ++ after) (s.shift before.size)).outcome = (step code s).outcome ∧
          (step (before ++ code ++ after) (s.shift before.size)).state =
            (step code s).state.shift before.size) ∧
      ∀ n, (run code n s).1.Inside →
        run (before ++ code ++ after) n (s.shift before.size) =
          ((run code n s).1, (run code n s).2.shift before.size) :=
  ⟨step_embed before after, fun _ => run_embed before after⟩

/-- A call, whose return address moves with the code, and the halt that it leads to. -/
theorem code_relocates_call :
    let code : Code := #[27, 5, 0, 0, 0, 11]
    let s := State.start (.ofBytes [] none) .unlimited
    (run code 2 s).1 = .halted ∧ (run code 2 s).2.calls = [5] ∧
      run (#[11, 11] ++ code ++ #[0]) 2 (s.shift 2) = (.halted, (run code 2 s).2.shift 2) := by
  intro code s
  have hends : (run code 2 s).1 = .halted := by
    have hverdict : (run code 2 s).1.verdict? = some (.ok ()) := by decide +kernel
    cases ho : (run code 2 s).1 with
    | halted => rfl
    | running =>
      rw [ho] at hverdict
      cases hverdict
    | failed f =>
      rw [ho] at hverdict
      cases hverdict
  have hrun := (code_relocates #[11, 11] code #[0] s).2 2 (hends ▸ Outcome.inside_halted)
  rw [hends] at hrun
  exact ⟨hends, by decide +kernel, hrun⟩

end StackMachine
