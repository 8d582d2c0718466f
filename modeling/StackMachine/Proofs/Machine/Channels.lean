import StackMachine.Proofs.Machine.Control
import StackMachine.Proofs.Machine.Execution

/-!
# StackMachine.Proofs.Machine.Channels

What the channels are used for.

* `Store.via`, `perform_via`: all instructions but `in` and `out` are the same with other channels.
* `Effect.Quiet`, `quiet_perform`: what these can do. All else stays, and they tell nothing.
* `input_perform`, `output_perform`, `ram_perform`, `events_perform`: what any instruction leaves of
  the channels and of memory, and what it tells.
* `Reading.pushed`, `step_read`, `step_read_error`: what `in` makes of a read.
* `input_step_of_input`, `input_step_of_other`: what a step does to the input.
* `output_step`, `output_reaches`: the bounds of the output stay as they are.
* `events_step`: what a step tells.
-/

namespace StackMachine

section Channels

variable {J : Type}

/-- The store with other channels. -/
def Store.via (s : Store) (input : Input) (output : Output) : Store :=
  { s with input := input, output := output }

def Effect.via (e : Effect J) (input : Input) (output : Output) : Effect J :=
  { e with store := e.store.via input output }

variable (s : Store) (input : Input) (output : Output)

theorem pushRam_via (a : Int) : (Effect.pushRam a (s.via input output) : Effect J) =
    (Effect.pushRam a s).via input output := by
  obtain ⟨regs, data, ram, i, o⟩ := s
  simp only [Effect.pushRam, Store.via]
  cases ram.load a <;> rfl

theorem popRam_via (a : Int) : (Effect.popRam a (s.via input output) : Effect J) =
    (Effect.popRam a s).via input output := by
  obtain ⟨regs, data, ram, i, o⟩ := s
  cases data with
  | nil => rfl
  | cons w ds =>
    simp only [Effect.popRam, Store.via]
    cases ram.store a w <;> rfl

theorem perform_via {i : Instr J} (hin : i ≠ .plain .input) (hout : i ≠ .plain .output) :
    i.perform (s.via input output) = (i.perform s).via input output := by
  cases i with
  | plain op =>
    obtain ⟨regs, data, ram, _, _⟩ := s
    cases op with
    | input => exact absurd rfl hin
    | output => exact absurd rfl hout
    | arith op => rcases data with _ | ⟨r, _ | ⟨l, ds⟩⟩ <;> rfl
    | func op => cases data <;> rfl
    | ret => rfl
    | halt => rfl
    | drop => cases data <;> rfl
  | imm w => rfl
  | reg m r =>
    cases m with
    | push => rfl
    | pop =>
      obtain ⟨regs, data, ram, _, _⟩ := s
      cases data <;> rfl
  | held m r =>
    cases m with
    | push => exact pushRam_via s input output _
    | pop => exact popRam_via s input output _
  | fixed m a =>
    cases m with
    | push => exact pushRam_via s input output _
    | pop => exact popRam_via s input output _
  | jump k t =>
    cases k with
    | always => rfl
    | call => rfl
    | when c =>
      obtain ⟨regs, data, ram, _, _⟩ := s
      rcases data with _ | ⟨r, _ | ⟨l, ds⟩⟩ <;> rfl

/-- What an instruction that uses no channel can do: other values, or one word stored in memory. It
tells nothing. -/
inductive Effect.Quiet (s : Store) : Effect J → Prop where
  | values (a : Action J) (regs : Registers) (data : List Word) :
      Quiet s ⟨a, { s with regs := regs, data := data }, []⟩
  | stored {a : Int} {w : Word} {m : Ram} (data : List Word) : s.ram.store a w = .ok m →
      Quiet s (.next { s with data := data, ram := m })

theorem Effect.Quiet.fail (f : Fault) : Quiet s (.fail f s : Effect J) :=
  .values (.fault f) s.regs s.data

theorem Effect.Quiet.next (regs : Registers) (data : List Word) :
    Quiet s (.next { s with regs := regs, data := data } : Effect J) :=
  .values .next regs data

theorem quiet_pushRam (a : Int) : (Effect.pushRam a s : Effect J).Quiet s := by
  unfold Effect.pushRam
  split
  · exact .next s s.regs _
  · exact .fail s _

theorem quiet_popRam (a : Int) : (Effect.popRam a s : Effect J).Quiet s := by
  unfold Effect.popRam
  split
  · exact .fail s _
  · split
    · rename_i m hm
      exact .stored _ hm
    · exact .fail s _

theorem quiet_perform {i : Instr J} (hin : i ≠ .plain .input) (hout : i ≠ .plain .output) :
    (i.perform s).Quiet s := by
  cases i with
  | plain op =>
    cases op with
    | input => exact absurd rfl hin
    | output => exact absurd rfl hout
    | arith op =>
      simp only [Instr.perform, Effect.binary]
      split
      · exact .next s s.regs _
      · exact .fail s _
    | func op =>
      simp only [Instr.perform, Effect.unary]
      split
      · exact .fail s _
      · exact .next s s.regs _
    | ret => exact .values .ret s.regs s.data
    | halt => exact .values .halt s.regs s.data
    | drop =>
      simp only [Instr.perform, Effect.drop]
      split
      · exact .fail s _
      · exact .next s s.regs _
  | imm w => exact .next s s.regs _
  | reg m r =>
    cases m with
    | push => exact .next s s.regs _
    | pop =>
      simp only [Instr.perform, Effect.popReg]
      split
      · exact .fail s _
      · exact .next s _ _
  | held m r =>
    cases m with
    | push => exact quiet_pushRam s _
    | pop => exact quiet_popRam s _
  | fixed m a =>
    cases m with
    | push => exact quiet_pushRam s _
    | pop => exact quiet_popRam s _
  | jump k t =>
    cases k with
    | always => exact .values (.jump t) s.regs s.data
    | call => exact .values (.call t) s.regs s.data
    | when c =>
      simp only [Instr.perform, Effect.branch]
      split
      · exact .values _ s.regs s.data
      · exact .fail s _

variable {s} {e : Effect J}

theorem Effect.Quiet.channels (h : e.Quiet s) :
    e.store.input = s.input ∧ e.store.output = s.output := by
  cases h <;> exact ⟨rfl, rfl⟩

theorem Effect.Quiet.events (h : e.Quiet s) : e.events = [] := by
  cases h <;> rfl

theorem Effect.Quiet.ram (h : e.Quiet s) :
    e.store.ram = s.ram ∨ ∃ a w, s.ram.store a w = .ok e.store.ram := by
  cases h with
  | values => exact .inl rfl
  | stored _ hm => exact .inr ⟨_, _, hm⟩

variable (s)

/-- A printed word is gone from the stack, even if the output refuses it. -/
theorem print_cases : ((Effect.print s : Effect J) = .fail .dataStackUnderflow s) ∨
    ∃ w data, s.data = w :: data ∧
      (Effect.print s : Effect J).store =
        { s with data := data, output := (s.output.write w.line).2 } ∧
      (Effect.print s : Effect J).events = [] := by
  simp only [Effect.print]
  split
  · exact .inl rfl
  · rename_i w data hd
    refine .inr ⟨w, data, hd, ?_⟩
    split <;> exact ⟨rfl, rfl⟩

theorem input_perform {i : Instr J} (h : i ≠ .plain .input) :
    (i.perform s).store.input = s.input := by
  by_cases hout : i = .plain .output
  · subst hout
    show (Effect.print s : Effect J).store.input = s.input
    rcases print_cases (J := J) s with hfail | ⟨w, data, -, hstore, -⟩
    · rw [hfail]
      rfl
    · rw [hstore]
  · exact (quiet_perform s h hout).channels.1

theorem output_perform (i : Instr J) :
    (i.perform s).store.output = s.output ∨
      ∃ bs, (i.perform s).store.output = (s.output.write bs).2 := by
  by_cases hin : i = .plain .input
  · left
    subst hin
    simp only [Instr.perform, Effect.read]
    split <;> rfl
  · by_cases hout : i = .plain .output
    · subst hout
      rcases print_cases (J := J) s with hfail | ⟨w, data, -, hstore, -⟩
      · exact .inl (by rw [Instr.perform, hfail]; rfl)
      · exact .inr ⟨w.line, by rw [Instr.perform, hstore]⟩
    · exact .inl (quiet_perform s hin hout).channels.2

theorem ram_perform (i : Instr J) :
    (i.perform s).store.ram = s.ram ∨ ∃ a w, s.ram.store a w = .ok (i.perform s).store.ram := by
  by_cases hin : i = .plain .input
  · left
    subst hin
    simp only [Instr.perform, Effect.read]
    split <;> rfl
  · by_cases hout : i = .plain .output
    · left
      subst hout
      rcases print_cases (J := J) s with hfail | ⟨w, data, -, hstore, -⟩
      · rw [Instr.perform, hfail]
        rfl
      · rw [Instr.perform, hstore]
    · exact (quiet_perform s hin hout).ram

/-- Only `in` tells anything besides the step itself. -/
theorem events_perform {i : Instr J} (h : i ≠ .plain .input) : (i.perform s).events = [] := by
  by_cases hout : i = .plain .output
  · subst hout
    rcases print_cases (J := J) s with hfail | ⟨w, data, -, -, hevents⟩
    · rw [Instr.perform, hfail]
      rfl
    · exact hevents
  · exact (quiet_perform s h hout).events

end Channels

section Read

variable {code : Code} {s : State}

def Reading.pushed : Reading → Except IoError Word
  | .number w => .ok w
  | .notNumber _ => .ok .zero
  | .exhausted => .ok .zero
  | .failed e => .error e

/-- What `in` pushes for a word of the input, or for a word that is missing. -/
def Input.valueOf (word : Option (List Char)) : Word := (word.bind Decimal.literal?).getD .zero

theorem Reading.pushed_ofWord (w : List Char) :
    (Reading.ofWord w).pushed = .ok (Input.valueOf (some w)) := by
  simp only [ofWord, Input.valueOf, Option.bind_some]
  cases Decimal.literal? w <;> rfl

theorem action_read {J : Type} (st : Store) : (Effect.read st : Effect J).action =
    match st.input.next.1.pushed with
    | .ok _ => .next
    | .error e => .fault (.io e) := by
  simp only [Effect.read]
  cases st.input.next.1 <;> rfl

theorem store_read {J : Type} (st : Store) : (Effect.read st : Effect J).store =
    match st.input.next.1.pushed with
    | .ok w => { st with data := w :: st.data, input := st.input.next.2 }
    | .error _ => { st with input := st.input.next.2 } := by
  simp only [Effect.read]
  cases st.input.next.1 <;> rfl

theorem step_read {w : Word} (hin : fetch code s.ip = .ok (.plain .input))
    (hw : s.store.input.next.1.pushed = .ok w) :
    (step code s).outcome = .running ∧ (step code s).state.store.data = w :: s.store.data := by
  rw [(step_of_fetch hin).1, store_step hin, Instr.perform, action_read, store_read, hw]
  exact ⟨rfl, rfl⟩

theorem step_read_error {e : IoError} (hin : fetch code s.ip = .ok (.plain .input))
    (he : s.store.input.next.1.pushed = .error e) :
    (step code s).outcome = .failed (.io e) ∧ (step code s).state.store.data = s.store.data := by
  rw [(step_of_fetch hin).1, store_step hin, Instr.perform, action_read, store_read, he]
  exact ⟨rfl, rfl⟩

theorem input_step_of_input (hin : fetch code s.ip = .ok (.plain .input)) :
    (step code s).state.store.input = s.store.input.next.2 := by
  rw [store_step hin, Instr.perform, store_read]
  cases s.store.input.next.1.pushed <;> rfl

theorem input_step_of_other (hin : fetch code s.ip ≠ .ok (.plain .input)) :
    (step code s).state.store.input = s.store.input := by
  cases hf : fetch code s.ip with
  | error f => rw [(step_of_fetch_error hf).2]
  | ok i =>
    rw [store_step hf]
    refine input_perform s.store ?_
    rintro rfl
    exact hin hf

theorem output_step (code : Code) (s : State) :
    (step code s).state.store.output.limit = s.store.output.limit ∧
      (step code s).state.store.output.flushFailure = s.store.output.flushFailure := by
  cases hf : fetch code s.ip with
  | error f =>
    rw [(step_of_fetch_error hf).2]
    exact ⟨rfl, rfl⟩
  | ok i =>
    rw [store_step hf]
    rcases output_perform s.store i with h | ⟨bs, h⟩
    · rw [h]
      exact ⟨rfl, rfl⟩
    · rw [h]
      exact ⟨rfl, rfl⟩

theorem output_reaches {t : State} (h : Reaches code s t) :
    t.store.output.limit = s.store.output.limit ∧
      t.store.output.flushFailure = s.store.output.flushFailure := by
  induction h with
  | refl => exact ⟨rfl, rfl⟩
  | @step t _ ih =>
    obtain ⟨hlimit, hflush⟩ := output_step code t
    exact ⟨hlimit.trans ih.1, hflush.trans ih.2⟩

theorem fetch_of_opcodeAt_input (h : opcodeAt code s.ip = .ok (.plain .input)) :
    fetch code s.ip = .ok (.plain .input) := by
  have hlt := (Array.getElem?_eq_some_iff.mp (opcodeAt_eq_ok_iff.mp h)).1
  exact fetch_eq_ok_iff.mpr ⟨h, instrAt_eq_ok_iff.mpr ⟨hlt, rfl⟩⟩

theorem events_step {i : Instr Offset} (h : fetch code s.ip = .ok i) :
    (step code s).events = .step s.ip i.opcode s.store.data :: (i.perform s.store).events := by
  obtain ⟨ho, hi⟩ := fetch_eq_ok_iff.mp h
  simp only [step, ho, hi]

end Read

end StackMachine
