import StackMachine.Machine.Processor
import StackMachine.Proofs.Machine.Channels
import StackMachine.Proofs.Machine.Unread

/-!
# StackMachine.Proofs.Machine.Chronicle

The log of a run, made again from the states that the run passed through.

* `Record`: what is written of an event. `Event.keep` writes it if a limit lets it through.
* `Calls`: the states before each call of `step` in a run, and how and where the run ends. A run
  that ends has them (`calls_of_ended`), and they say what a visitor sees (`Calls.walk_eq`).
* `State.told`: what a step tells, by the code and the words that are left (`record_step`).
* `log_faithful`: the log of a run is what each call of `step` tells, in order, and then its end.
-/

namespace StackMachine

/-- What is written of an event. -/
structure Record where
  level : Level
  message : String
  fields : List (String × String)
deriving DecidableEq

namespace Event

def record (e : Event) : Record := ⟨e.level, e.message, e.fields⟩

/-- Adds to a log what its limit lets through. -/
def keep (limit : Level) (log : List Record) (e : Event) : List Record :=
  if limit.admits e.level then log ++ [e.record] else log

theorem foldl_keep_trace (events : List Event) (log : List Record) :
    events.foldl (keep .trace) log = log ++ events.map record := by
  induction events generalizing log with
  | nil => simp
  | cons e events ih =>
    have hadmits : Level.admits .trace e.level = true := by
      cases e <;> rfl
    rw [List.foldl_cons, keep, if_pos hadmits, ih, List.map_cons, List.append_assoc]
    rfl

end Event

section Calls

variable {code : Code} {s t : State} {calls : List State} {o : Outcome}

/-- A run from `s` calls `step` in each of `calls`, in this order, and ends in `t` with outcome `o`
of the last call. -/
inductive Calls (code : Code) : State → List State → Outcome → State → Prop where
  | last {s : State} : (step code s).outcome ≠ .running →
      Calls code s [s] (step code s).outcome (step code s).state
  | next {s t : State} {calls : List State} {o : Outcome} : (step code s).outcome = .running →
      Calls code (step code s).state calls o t → Calls code s (s :: calls) o t

theorem calls_of_ended {limit : Nat} (h : (run code limit s).1 ≠ .running) :
    ∃ calls, Calls code s calls (run code limit s).1 (run code limit s).2 ∧
      calls.length ≤ limit := by
  induction limit generalizing s with
  | zero => exact absurd rfl h
  | succ limit ih =>
    by_cases ho : (step code s).outcome = .running
    · rw [run_of_running ho] at h ⊢
      obtain ⟨calls, hcalls, hlength⟩ := ih h
      exact ⟨s :: calls, .next ho hcalls, Nat.succ_le_succ hlength⟩
    · rw [run_of_ended ho]
      exact ⟨[s], .last ho, Nat.succ_le_succ (Nat.zero_le limit)⟩

theorem Calls.walk_eq {α : Type} (h : Calls code s calls o t) {limit : Nat}
    (hlimit : calls.length ≤ limit) (visit : α → Step → α) (a : α) :
    walk code visit limit s a = (o, t, calls.foldl (fun a u => visit a (step code u)) a) := by
  induction h generalizing limit a with
  | @last s ho =>
    obtain ⟨limit, rfl⟩ := Nat.exists_eq_add_of_le' hlimit
    simp only [List.length_singleton, walk]
    cases hs : (step code s).outcome with
    | running => exact absurd hs ho
    | halted => rfl
    | failed f => rfl
  | @next s t calls o ho _ ih =>
    obtain ⟨limit, rfl⟩ := Nat.exists_eq_add_of_le' hlimit
    rw [List.length_cons, ← Nat.add_assoc, walk]
    simp only [ho]
    exact ih (Nat.le_add_left _ _) _

end Calls

/-- The warning of an `in` that makes do with zero: the first word that is left is not a number, or
no word is left. There is none for a read that fails. -/
def Input.warning? (i : Input) : Option Record :=
  match i.unread, i.failure with
  | w :: _, _ =>
    if Decimal.literal? w = none then
      some ⟨.warn, "input is not a number", [("token", String.ofList w)]⟩
    else none
  | [], none => some ⟨.warn, "input exhausted", []⟩
  | [], some _ => none

namespace State

/-- The opcode under control, if control is inside the code and the byte is one. -/
def opcode? (s : State) (code : Code) : Option Opcode := code[s.ip]?.bind Opcode.ofByte?

/-- What a call of `step` tells: the step itself as soon as its opcode is known, and the warning of
an `in`. -/
def told (code : Code) (s : State) : List Record :=
  match s.opcode? code with
  | none => []
  | some op =>
    ⟨.trace, "step", [("ip", s.ip.repr), ("op", op.mnemonic),
        ("depth", s.store.data.length.repr)]⟩ ::
      if op = .plain .input then s.store.input.warning?.toList else []

def farewell (s : State) (verdict : Verdict) : Record :=
  ⟨.debug, "execution finished", [("ip", s.ip.repr),
    ("data_depth", s.store.data.length.repr), ("call_depth", s.calls.length.repr),
    ("result", verdict.describe)]⟩

end State

section Told

variable {code : Code} {s : State}

theorem State.opcode?_eq (code : Code) (s : State) :
    s.opcode? code = (opcodeAt code s.ip).toOption := by
  unfold State.opcode? opcodeAt
  cases code[s.ip]? with
  | none => rfl
  | some b =>
    simp only [Option.bind_some]
    cases Opcode.ofByte? b <;> rfl

theorem Input.next_cases (i : Input) :
    (∃ w v, i.unread.head? = some w ∧ Decimal.literal? w = some v ∧ i.next.1 = .number v ∧
        i.warning? = none) ∨
      (∃ w, i.unread.head? = some w ∧ Decimal.literal? w = none ∧ i.next.1 = .notNumber w ∧
        i.warning? = some ⟨.warn, "input is not a number", [("token", String.ofList w)]⟩) ∨
      (i.unread = [] ∧ i.failure = none ∧ i.next.1 = .exhausted ∧
        i.warning? = some ⟨.warn, "input exhausted", []⟩) ∨
      ∃ e, i.unread = [] ∧ i.failure = some e ∧ i.next.1 = .failed e ∧ i.warning? = none := by
  have hreading := i.gives_next.reading
  cases hwords : i.unread with
  | cons w ws =>
    rw [hwords, List.head?_cons, Option.map_some, Option.getD_some, Reading.ofWord] at hreading
    cases hw : Decimal.literal? w with
    | some v =>
      rw [hw] at hreading
      exact .inl ⟨w, v, rfl, hw, hreading, by simp [warning?, hwords, hw]⟩
    | none =>
      rw [hw] at hreading
      exact .inr (.inl ⟨w, rfl, hw, hreading, by simp [warning?, hwords, hw]⟩)
  | nil =>
    rw [hwords, List.head?_nil, Option.map_none, Option.getD_none, ending] at hreading
    cases hfailure : i.failure with
    | none =>
      rw [hfailure] at hreading
      exact .inr (.inr (.inl ⟨rfl, rfl, hreading, by simp [warning?, hwords, hfailure]⟩))
    | some e =>
      rw [hfailure] at hreading
      exact .inr (.inr (.inr ⟨e, rfl, rfl, hreading, by simp [warning?, hwords, hfailure]⟩))

theorem record_read (st : Store) :
    (Effect.read st : Effect Offset).events.map Event.record = st.input.warning?.toList := by
  obtain ⟨w, v, -, -, hread, hwarn⟩ | ⟨w, -, -, hread, hwarn⟩ | ⟨-, -, hread, hwarn⟩ |
    ⟨e, -, -, hread, hwarn⟩ := st.input.next_cases
  · simp only [Effect.read, hread, hwarn]
    rfl
  · simp only [Effect.read, hread, hwarn]
    rfl
  · simp only [Effect.read, hread, hwarn]
    rfl
  · simp only [Effect.read, hread, hwarn]
    rfl

theorem record_step (code : Code) (s : State) :
    (step code s).events.map Event.record = s.told code := by
  rw [State.told, State.opcode?_eq]
  cases hop : opcodeAt code s.ip with
  | error f => simp [step, hop, Except.toOption]
  | ok op =>
    by_cases hin : op = .plain .input
    · subst hin
      rw [events_step (fetch_of_opcodeAt_input hop), List.map_cons, Instr.perform, record_read]
      rfl
    · have halone : (step code s).events = [.step s.ip op s.store.data] := by
        cases hi : instrAt code s.ip op with
        | error f => simp [step, hop, hi]
        | ok i =>
          have hother : i ≠ .plain .input := by
            rintro rfl
            exact hin (Opcode.opcode_of_decode? (instrAt_eq_ok_iff.mp hi).2).symm
          simp [step, hop, hi, events_perform s.store hother]
      simp only [halone, Except.toOption, if_neg hin]
      rfl

theorem fetch_of_opcode?_input (h : s.opcode? code = some (.plain .input)) :
    fetch code s.ip = .ok (.plain .input) := by
  rw [State.opcode?_eq] at h
  cases hop : opcodeAt code s.ip with
  | error f =>
    rw [hop] at h
    cases h
  | ok op =>
    rw [hop] at h
    cases h
    exact fetch_of_opcodeAt_input hop

/-- An `in` warns if and only if it goes on without a number, and then it has pushed zero. -/
theorem step_input (h : s.opcode? code = some (.plain .input)) :
    let word := s.store.input.unread.head?
    (s.store.input.warning?.isSome ↔
        (step code s).outcome = .running ∧ word.bind Decimal.literal? = none) ∧
      ((step code s).outcome = .running →
        (step code s).state.store.data = Input.valueOf word :: s.store.data) := by
  have hin := fetch_of_opcode?_input h
  obtain ⟨w, v, hw, hv, hread, hwarn⟩ | ⟨w, hw, hv, hread, hwarn⟩ | ⟨hw, hf, hread, hwarn⟩ |
    ⟨e, hw, hf, hread, hwarn⟩ := s.store.input.next_cases
  · obtain ⟨hrunning, hdata⟩ := step_read (w := v) hin (by rw [hread]; rfl)
    simp [hwarn, hw, hv, hdata, Input.valueOf]
  · obtain ⟨hrunning, hdata⟩ := step_read (w := .zero) hin (by rw [hread]; rfl)
    simp [hwarn, hw, hv, hrunning, hdata, Input.valueOf]
  · obtain ⟨hrunning, hdata⟩ := step_read (w := .zero) hin (by rw [hread]; rfl)
    simp [hwarn, hw, hrunning, hdata, Input.valueOf]
  · obtain ⟨hfailed, -⟩ := step_read_error (e := e) hin (by rw [hread]; rfl)
    simp [hwarn, hfailed]

theorem foldl_calls (calls : List State) (log : List Record) :
    calls.foldl (fun log t => (step code t).events.foldl (Event.keep .trace) log) log =
      log ++ calls.flatMap (State.told code) := by
  induction calls generalizing log with
  | nil => simp
  | cons t calls ih =>
    rw [List.foldl_cons, ih, Event.foldl_keep_trace, record_step, List.flatMap_cons,
      List.append_assoc]

/-- The log of a run whose calls are known. -/
theorem Calls.log_execute {p : Processor} {calls : List State} {o : Outcome} {final : State}
    {verdict : Verdict} {limit : Nat} (h : Calls code (.start p.input p.output) calls o final)
    (hlimit : calls.length ≤ limit) (ho : o.verdict? = some verdict) (log : List Record) :
    ∃ x, p.execute (Event.keep .trace) code limit log = some x ∧
      x.log = log ++ calls.flatMap (State.told code) ++ [final.farewell verdict] ∧
      x.verdict = verdict.andAlso final.store.output.flush := by
  have hwalk := h.walk_eq hlimit (fun log made => made.events.foldl (Event.keep .trace) log) log
  rw [foldl_calls] at hwalk
  unfold Processor.execute
  simp only [hwalk, ho, Option.map_some]
  exact ⟨_, rfl, rfl, rfl⟩

end Told

/-- The log of a run is faithful. If a run ends, each call of `step` has told, in order, of the state
before it, and has warned exactly where an `in` made do with zero. Behind all of this stands one
record of the end, with the verdict before the output was flushed. -/
theorem log_faithful {p : Processor} {code : Code} {limit : Nat} {verdict : Verdict}
    (h : (run code limit (.start p.input p.output)).1.verdict? = some verdict)
    (log : List Record) :
    let final := (run code limit (.start p.input p.output)).2
    ∃ x calls o, p.execute (Event.keep .trace) code limit log = some x ∧
      Calls code (.start p.input p.output) calls o final ∧ o.verdict? = some verdict ∧
      x.log = log ++ calls.flatMap (State.told code) ++ [final.farewell verdict] ∧
      x.verdict = verdict.andAlso final.store.output.flush ∧
      ∀ t ∈ calls, t.opcode? code = some (.plain .input) →
        let word := t.store.input.unread.head?
        (t.store.input.warning?.isSome ↔
          (step code t).outcome = .running ∧ word.bind Decimal.literal? = none) ∧
        ((step code t).outcome = .running →
          (step code t).state.store.data = Input.valueOf word :: t.store.data) := by
  intro final
  have hended : (run code limit (.start p.input p.output)).1 ≠ .running := by
    intro hrunning
    rw [hrunning] at h
    cases h
  obtain ⟨calls, hcalls, hlength⟩ := calls_of_ended hended
  obtain ⟨x, hx, hlog, hverdict⟩ := hcalls.log_execute hlength h log
  exact ⟨x, calls, _, hx, hcalls, h, hlog, hverdict, fun t _ => step_input⟩

/-- A word that is no number, then no word at all. The zeros are told of, and the run has gone well
although the flush fails. -/
theorem log_faithful_zeros :
    let code : Code := #[1, 1, 2, 11]
    let full : IoError := ⟨.other, "disk full"⟩
    let p : Processor := ⟨.ofBytes [120] none, ⟨#[], none, some full⟩⟩
    let step (ip op depth : String) : Record :=
      ⟨.trace, "step", [("ip", ip), ("op", op), ("depth", depth)]⟩
    let told := [step "0" "in" "0", ⟨.warn, "input is not a number", [("token", "x")]⟩,
      step "1" "in" "1", ⟨.warn, "input exhausted", []⟩, step "2" "out" "2", step "3" "halt" "1",
      ⟨.debug, "execution finished",
        [("ip", "3"), ("data_depth", "1"), ("call_depth", "0"), ("result", "Ok(())")]⟩]
    (run code 4 (.start p.input p.output)).1.verdict? = some (.ok ()) ∧
      ∃ x, p.execute (Event.keep .trace) code 4 [] = some x ∧ x.log = told ∧
        x.verdict = .error (.io full) := by
  intro code full p step told
  have hhalted : (run code 4 (.start p.input p.output)).1 = .halted := by decide +kernel
  have hended : (run code 4 (.start p.input p.output)).1.verdict? = some (.ok ()) := by
    rw [hhalted]
    rfl
  have htold : (p.execute (Event.keep .trace) code 4 []).map (·.log) = some told := by
    decide +kernel
  have hflush : (run code 4 (.start p.input p.output)).2.store.output.flush = some full := by
    decide +kernel
  obtain ⟨x, calls, o, hx, -, -, -, hverdict, -⟩ := log_faithful hended []
  refine ⟨hended, x, hx, ?_, ?_⟩
  · rw [hx] at htold
    exact Option.some.inj htold
  · rw [hverdict, hflush]
    rfl

end StackMachine
