import StackMachine.Proofs.Machine.Faults

/-!
# StackMachine.Proofs.Machine.Failure

What is left of a state after a step that fails.

* `Instr.Leaves`: the store after an instruction that failed. It is the one before, unless a channel
  failed: a failed read may have used up input, and a failed write has taken the word off the stack.
* `leaves_perform`: one case for each instruction; `leaves_step` adds what becomes of control.
* `step_failed_keeps`: the same of a step, field by field.
-/

namespace StackMachine

section Leaves

variable {J : Type}

inductive Instr.Leaves (i : Instr J) (s : Store) : Fault → Store → Prop where
  | whole {f : Fault} : (∀ e, f ≠ .io e) → Leaves i s f s
  | read {e : IoError} : i = .plain .input → s.input.next.1 = .failed e →
      Leaves i s (.io e) { s with input := s.input.next.2 }
  | print {e : IoError} {w : Word} {rest : List Word} : i = .plain .output → s.data = w :: rest →
      s.output.refusal? w.line = some e →
      Leaves i s (.io e) { s with data := rest, output := (s.output.write w.line).2 }

variable {i : Instr J} {s : Store} {f : Fault}

theorem leaves_read (h : (Effect.read s : Effect J).action = .fault f) :
    (Instr.plain .input : Instr J).Leaves s f (Effect.read s : Effect J).store := by
  unfold Effect.read at h ⊢
  cases hr : s.input.next.1 with
  | number w => simp only [hr] at h; cases h
  | notNumber w => simp only [hr] at h; cases h
  | exhausted => simp only [hr] at h; cases h
  | failed e =>
    simp only [hr] at h ⊢
    cases h
    exact .read rfl hr

theorem leaves_print (h : (Effect.print s : Effect J).action = .fault f) :
    (Instr.plain .output : Instr J).Leaves s f (Effect.print s : Effect J).store := by
  unfold Effect.print at h ⊢
  split at h
  · cases h
    exact .whole (by simp)
  · rename_i w rest hd
    cases hr : s.output.refusal? w.line with
    | none =>
      simp only [Output.write, hr] at h
      cases h
    | some e =>
      have hw : (s.output.write w.line).1 = some e := hr
      simp only [hw] at h ⊢
      cases h
      exact .print rfl hd hr

theorem leaves_pushRam {a : Int} (h : (Effect.pushRam a s : Effect J).action = .fault f) :
    i.Leaves s f (Effect.pushRam a s : Effect J).store := by
  unfold Effect.pushRam Ram.load at h ⊢
  split at h
  · cases h
  · rename_i g hg
    cases h
    split at hg <;> cases hg
    exact .whole (by simp)

theorem leaves_popRam {a : Int} (h : (Effect.popRam a s : Effect J).action = .fault f) :
    i.Leaves s f (Effect.popRam a s : Effect J).store := by
  unfold Effect.popRam Ram.store at h ⊢
  split at h
  · cases h
    exact .whole (by simp)
  · split at h
    · cases h
    · rename_i g hg
      cases h
      split at hg <;> cases hg
      exact .whole (by simp)

theorem leaves_perform (h : (i.perform s).action = .fault f) :
    i.Leaves s f (i.perform s).store := by
  -- Only the two instructions that use a channel can fail after a change.
  cases i with
  | plain op =>
    cases op with
    | input => exact leaves_read h
    | output => exact leaves_print h
    | arith op =>
      simp only [Instr.perform, Effect.binary] at h ⊢
      split at h
      · cases h
      · cases h
        exact .whole (by simp)
    | func op =>
      simp only [Instr.perform, Effect.unary] at h ⊢
      split at h
      · cases h
        exact .whole (by simp)
      · cases h
    | ret => cases h
    | halt => cases h
    | drop =>
      simp only [Instr.perform, Effect.drop] at h ⊢
      split at h
      · cases h
        exact .whole (by simp)
      · cases h
  | imm w => cases h
  | reg m r =>
    cases m with
    | push => cases h
    | pop =>
      simp only [Instr.perform, Effect.popReg] at h ⊢
      split at h
      · cases h
        exact .whole (by simp)
      · cases h
  | held m r =>
    cases m with
    | push => exact leaves_pushRam h
    | pop => exact leaves_popRam h
  | fixed m a =>
    cases m with
    | push => exact leaves_pushRam h
    | pop => exact leaves_popRam h
  | jump k t =>
    rw [store_perform_jump]
    cases k with
    | always => cases h
    | call => cases h
    | when c =>
      simp only [Instr.perform, Effect.branch] at h
      split at h
      · split at h <;> cases h
      · cases h
        exact .whole (by simp)

theorem store_perform_of_transfer {a : Action J} (h : (i.perform s).action = a)
    (ha : (∃ t, a = .jump t ∨ a = .call t) ∨ a = .ret) : (i.perform s).store = s := by
  have hasks := asks_perform i s
  rw [h] at hasks
  cases hasks with
  | jump hi _ _ => rw [hi, store_perform_jump]
  | call hi => rw [hi, store_perform_jump]
  | ret hi => rw [hi]; rfl
  | next => simp at ha
  | halt _ => simp at ha
  | fault _ => simp at ha

end Leaves

/-- A failing transfer keeps the state. Its fault is the one asked for, or a missing place to go. -/
theorem transfer_failed {s : State} {code : Code} {following : Nat} {a : Action Offset} {f : Fault}
    (h : (s.transfer code following a).1 = .failed f) :
    (s.transfer code following a).2 = s ∧
      (a = .fault f ∨ ((∀ e, f ≠ .io e) ∧ ((∃ t, a = .jump t ∨ a = .call t) ∨ a = .ret))) := by
  have henter : ∀ (d : Offset) (calls : List Nat), (s.enter code d calls).1 = .failed f →
      (s.enter code d calls).2 = s ∧ ∀ e, f ≠ .io e := by
    intro d calls hd
    simp only [State.enter] at hd ⊢
    split at hd
    · cases hd
    · cases hd
      exact ⟨rfl, by simp⟩
  cases a with
  | next => cases h
  | jump d =>
    rw [State.transfer_jump] at h ⊢
    obtain ⟨hs, hf⟩ := henter d _ h
    exact ⟨hs, .inr ⟨hf, .inl ⟨d, .inl rfl⟩⟩⟩
  | call d =>
    rw [State.transfer_call] at h ⊢
    obtain ⟨hs, hf⟩ := henter d _ h
    exact ⟨hs, .inr ⟨hf, .inl ⟨d, .inr rfl⟩⟩⟩
  | ret =>
    simp only [State.transfer] at h ⊢
    split at h
    · cases h
      exact ⟨rfl, .inr ⟨by simp, .inr trivial⟩⟩
    · cases h
  | halt => cases h
  | fault g =>
    cases h
    exact ⟨rfl, .inl rfl⟩

theorem ne_io_of_fetch_error {code : Code} {a : Nat} {f : Fault} (h : fetch code a = .error f) :
    ∀ e, f ≠ .io e := by
  unfold fetch opcodeAt instrAt at h
  split at h
  · rename_i g ho
    cases h
    split at ho
    · cases ho
      simp
    · split at ho <;> cases ho
      simp
  · split at h
    · split at h <;> cases h
      simp
    · cases h
      simp

theorem leaves_step {code : Code} {s : State} {i : Instr Offset} {f : Fault}
    (hf : fetch code s.ip = .ok i) (h : (step code s).outcome = .failed f) :
    (step code s).state.ip = s.ip ∧ (step code s).state.calls = s.calls ∧
      i.Leaves s.store f (step code s).state.store := by
  rw [(step_of_fetch hf).1] at h
  obtain ⟨hs, ha⟩ := transfer_failed h
  rw [(step_of_fetch hf).2, hs]
  refine ⟨rfl, rfl, ?_⟩
  rcases ha with ha | ⟨hio, ha⟩
  · exact leaves_perform ha
  · show i.Leaves s.store f (i.perform s.store).store
    rw [store_perform_of_transfer rfl ha]
    exact .whole hio

/-- A failing step leaves the state as it was. Only a channel that fails makes a difference: after a
failed read input may be gone, and after a failed write the word that was to be printed is off the
stack and the beginning of its line, as far as the output took it, is printed. -/
theorem step_failed_keeps {code : Code} {s : State} {f : Fault}
    (h : (step code s).outcome = .failed f) :
    let t := (step code s).state
    t.ip = s.ip ∧ t.calls = s.calls ∧ t.store.regs = s.store.regs ∧ t.store.ram = s.store.ram ∧
      ((∀ e, f ≠ .io e) → t = s) ∧
      ∀ e, f = .io e →
        (fetch code s.ip = .ok (.plain .input) ∧ s.store.input.next.1 = .failed e ∧
          t.store.data = s.store.data ∧ t.store.output = s.store.output ∧
          t.store.input = s.store.input.next.2) ∨
        (fetch code s.ip = .ok (.plain .output) ∧ t.store.input = s.store.input ∧
          ∃ w rest, s.store.data = w :: rest ∧ t.store.data = rest ∧
            s.store.output.refusal? w.line = some e ∧
            t.store.output = { s.store.output with
              written := s.store.output.written ++
                (w.line.take (s.store.output.accepts w.line)).toArray }) := by
  cases hf : fetch code s.ip with
  | error g =>
    obtain ⟨ho, hs⟩ := step_of_fetch_error hf
    rw [ho] at h
    cases h
    rw [hs]
    refine ⟨rfl, rfl, rfl, rfl, fun _ => rfl, ?_⟩
    intro e he
    exact absurd he (ne_io_of_fetch_error hf e)
  | ok i =>
    obtain ⟨hip, hcalls, hstore⟩ := leaves_step hf h
    generalize (step code s).state = t at hip hcalls hstore
    obtain ⟨ip, calls, store⟩ := t
    simp only at hip hcalls hstore
    subst hip hcalls
    cases hstore with
    | whole hio =>
      refine ⟨rfl, rfl, rfl, rfl, fun _ => rfl, ?_⟩
      intro e he
      exact absurd he (hio e)
    | @read e hi hr =>
      refine ⟨rfl, rfl, rfl, rfl, fun hio => absurd rfl (hio e), ?_⟩
      intro e' he
      cases he
      exact .inl ⟨by rw [hi], hr, rfl, rfl, rfl⟩
    | @print e w rest hi hd hr =>
      refine ⟨rfl, rfl, rfl, rfl, fun hio => absurd rfl (hio e), ?_⟩
      intro e' he
      cases he
      exact .inr ⟨by rw [hi], rfl, w, rest, hd, rfl, hr, rfl⟩

/-- A line of two bytes, of which the output takes one. -/
theorem step_failed_keeps_print :
    let full : IoError := ⟨.other, "disk full"⟩
    let store := Store.fresh (.ofBytes [] none) ⟨#[], some (1, full), none⟩
    let s : State := ⟨0, [5], { store with data := [.zero, .zero] }⟩
    (step #[2] s).outcome = .failed (.io full) ∧ (step #[2] s).state.ip = 0 ∧
      (step #[2] s).state.calls = [5] ∧ (step #[2] s).state.store.ram = store.ram ∧
      (step #[2] s).state.store.data = [.zero] ∧
      (step #[2] s).state.store.output.written = #[48] := by
  intro full store s
  have h : (step #[2] s).outcome = .failed (.io full) :=
    Outcome.fault?_eq_some_iff.mp (by decide +kernel)
  obtain ⟨hip, hcalls, -, hram, -, hio⟩ := step_failed_keeps h
  refine ⟨h, hip, hcalls, hram, ?_⟩
  rcases hio full rfl with ⟨hin, -⟩ | ⟨-, -, w, rest, hd, hrest, -, hout⟩
  · cases hin
  · cases hd
    rw [hrest, hout]
    exact ⟨rfl, by decide +kernel⟩

end StackMachine
