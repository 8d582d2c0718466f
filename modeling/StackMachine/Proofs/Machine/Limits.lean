import StackMachine.Proofs.Machine.Isolation

/-!
# StackMachine.Proofs.Machine.Limits

A limit on the output cuts a run short, and does nothing else.

* `Output.limited`, `Store.limited`, `State.limited`: the same with a limit on the output.
* `write_within`, `write_beyond`: writing up to the limit and beyond it.
* `perform_within`, `step_within`, `run_within`: as long as what is printed keeps to the limit, an
  instruction, a step and a run are the same with it and without it.
* `step_beyond`: the step that would print more is an `out` that fails, after as much as there is
  room for.
* `printed_run`: what is printed is not taken back.
* `exists_beyond`, `CutShort`, `cut_short`: which step that is, and what is left of the run from it
  on.
* `execute_within`, `execute_beyond`: the same for what is made of a run.
* `limited_prefix`: a run with a limit against the run without.
-/

namespace StackMachine

/-- The same output with a limit: a number of bytes in all, and what the next one meets. -/
def Output.limited (o : Output) (room : Nat × IoError) : Output := { o with limit := some room }

def Store.limited (s : Store) (room : Nat × IoError) : Store :=
  s.via s.input (s.output.limited room)

def Effect.limited {J : Type} (e : Effect J) (room : Nat × IoError) : Effect J :=
  { e with store := e.store.limited room }

def State.limited (s : State) (room : Nat × IoError) : State :=
  { s with store := s.store.limited room }

def Step.limited (made : Step) (room : Nat × IoError) : Step :=
  { made with state := made.state.limited room }

def State.printed (s : State) : Array UInt8 := s.store.output.written

section Write

variable {o : Output} {n : Nat} {e : IoError} {bs : List UInt8}

theorem write_within (ho : o.limit = none) (h : o.written.size + bs.length ≤ n) :
    (o.limited (n, e)).write bs = (none, (o.write bs).2.limited (n, e)) := by
  have htake : min bs.length (n - o.written.size) = bs.length := by omega
  simp [Output.write, Output.refusal?, Output.accepts, Output.limited, ho, h, htake]

/-- Of bytes that have too little room as many are written as there is room for. -/
theorem write_beyond (ho : o.limit = none) (hroom : o.written.size ≤ n)
    (h : n < o.written.size + bs.length) :
    (o.limited (n, e)).write bs =
      (some e, { o.limited (n, e) with written := (o.write bs).2.written.extract 0 n }) := by
  have hless : ¬ o.written.size + bs.length ≤ n := by omega
  have hmin : min bs.length (n - o.written.size) = n - o.written.size := by omega
  have hwritten : (o.written ++ bs.toArray).extract 0 n =
      o.written ++ (bs.take (n - o.written.size)).toArray := by
    rw [Array.extract_append, Array.extract_eq_self_of_le hroom]
    simp
  simp [Output.write, Output.refusal?, Output.accepts, Output.limited, ho, hless, hmin, hwritten]

end Write

section Perform

variable {J : Type} {i : Instr J} {s : Store} {n : Nat} {e : IoError}

theorem read_within (s : Store) (room : Nat × IoError) :
    (Effect.read (s.limited room) : Effect J) = (Effect.read s).limited room := by
  obtain ⟨regs, data, ram, input, output⟩ := s
  simp only [Effect.read, Store.limited, Store.via]
  cases input.next.1 <;> rfl

theorem print_within (ho : s.output.limit = none)
    (h : (Effect.print s : Effect J).store.output.written.size ≤ n) :
    (Effect.print (s.limited (n, e)) : Effect J) = (Effect.print s).limited (n, e) := by
  obtain ⟨regs, data, ram, input, output⟩ := s
  cases data with
  | nil => rfl
  | cons w ds =>
    have hunlimited : (output.write w.line).1 = none := by
      rw [Output.write_unlimited ho]
    have hsize : (output.write w.line).2.written.size ≤ n := by
      simp only [Effect.print, hunlimited] at h
      exact h
    rw [Output.write_unlimited ho, Array.size_append, List.size_toArray] at hsize
    have hwithin : (output.limited (n, e)).write w.line =
        (none, (output.write w.line).2.limited (n, e)) := write_within ho hsize
    simp only [Effect.print, Store.limited, Store.via, hwithin, hunlimited]
    rfl

/-- An instruction that prints no more than there is room for does not see the limit. -/
theorem perform_within (i : Instr J) (ho : s.output.limit = none)
    (h : (i.perform s).store.output.written.size ≤ n) :
    i.perform (s.limited (n, e)) = (i.perform s).limited (n, e) := by
  by_cases hin : i = .plain .input
  · subst hin
    exact read_within s (n, e)
  by_cases hout : i = .plain .output
  · subst hout
    exact print_within ho h
  obtain ⟨hinput, houtput⟩ := (quiet_perform s hin hout).channels
  rw [Store.limited, perform_via _ _ _ hin hout, Effect.limited, Store.limited, hinput, houtput]
  rfl

/-- An instruction that prints more than there is room for is an `out`. With the limit it fails, when
as much is printed as there is room for and the word is off the stack. -/
theorem perform_beyond (ho : s.output.limit = none) (hroom : s.output.written.size ≤ n)
    (h : n < (i.perform s).store.output.written.size) :
    i = .plain .output ∧ ∃ w rest, s.data = w :: rest ∧
      i.perform (s.limited (n, e)) =
        .fail (.io e) { s with
          data := rest
          output := { s.output.limited (n, e) with
            written := (i.perform s).store.output.written.extract 0 n } } := by
  by_cases hin : i = .plain .input
  · subst hin
    rw [Instr.perform, store_read] at h
    split at h <;> exact absurd hroom (Nat.not_le_of_lt h)
  by_cases hout : i = .plain .output
  · subst hout
    refine ⟨rfl, ?_⟩
    obtain ⟨regs, data, ram, input, output⟩ := s
    cases data with
    | nil => exact absurd hroom (Nat.not_le_of_lt h)
    | cons w ds =>
      have hunlimited : (output.write w.line).1 = none := by
        rw [Output.write_unlimited ho]
      have hprint : (Effect.print ⟨regs, w :: ds, ram, input, output⟩ : Effect J) =
          .next ⟨regs, ds, ram, input, (output.write w.line).2⟩ := by
        simp only [Effect.print, hunlimited]
      rw [Instr.perform, hprint] at h
      have hsize : n < (output.write w.line).2.written.size := h
      rw [Output.write_unlimited ho, Array.size_append, List.size_toArray] at hsize
      have hbeyond := write_beyond (e := e) ho hroom hsize
      refine ⟨w, ds, rfl, ?_⟩
      simp only [Instr.perform, Effect.print, Store.limited, Store.via, hbeyond, hunlimited]
      rfl
  · rw [(quiet_perform s hin hout).channels.2] at h
    exact absurd hroom (Nat.not_le_of_lt h)

end Perform

section Step

variable {code : Code} {s : State} {n : Nat} {e : IoError}

theorem transfer_limited (s : State) (room : Nat × IoError) (code : Code) (following : Nat)
    (a : Action Offset) :
    (s.limited room).transfer code following a =
      ((s.transfer code following a).1, (s.transfer code following a).2.limited room) := by
  rw [State.limited, State.limited, transfer_store, store_transfer]

theorem step_within (ho : s.store.output.limit = none)
    (h : (step code s).state.printed.size ≤ n) :
    step code (s.limited (n, e)) = (step code s).limited (n, e) := by
  have hip : (s.limited (n, e)).ip = s.ip := rfl
  cases hop : opcodeAt code s.ip with
  | error f =>
    simp only [step, hip, hop]
    rfl
  | ok op =>
    cases hi : instrAt code s.ip op with
    | error f =>
      simp only [step, hip, hop, hi]
      rfl
    | ok i =>
      have hf : fetch code s.ip = .ok i := by
        simp only [fetch, hop, hi]
      rw [State.printed, store_step hf] at h
      have hperform : i.perform (s.limited (n, e)).store = (i.perform s.store).limited (n, e) :=
        perform_within i ho h
      have hmoved := transfer_limited { s with store := (i.perform s.store).store } (n, e) code
        (s.ip + op.size) (i.perform s.store).action
      have hends := congrArg Prod.fst hmoved
      have hstands := congrArg Prod.snd hmoved
      simp only [step, hip, hop, hi, hperform, Step.limited, Step.mk.injEq]
      exact ⟨hends, hstands, rfl⟩

/-- A state where an `out` has failed for want of room: the word is off the stack, the output is
full, and all else is as it was. -/
def State.full (s : State) (rest : List Word) (n : Nat) (e : IoError) (printed : Array UInt8) :
    State :=
  { s with store := { s.store with
    data := rest
    output := { s.store.output.limited (n, e) with written := printed.extract 0 n } } }

theorem step_beyond (ho : s.store.output.limit = none) (hroom : s.printed.size ≤ n)
    (h : n < (step code s).state.printed.size) :
    fetch code s.ip = .ok (.plain .output) ∧ ∃ w rest, s.store.data = w :: rest ∧
      (step code (s.limited (n, e))).outcome = .failed (.io e) ∧
      (step code (s.limited (n, e))).state = s.full rest n e (step code s).state.printed := by
  cases hf : fetch code s.ip with
  | error f =>
    rw [(step_of_fetch_error hf).2] at h
    omega
  | ok i =>
    obtain ⟨houtcome', hstate'⟩ := step_of_fetch (s := s.limited (n, e)) hf
    rw [State.printed, store_step hf] at h ⊢
    obtain ⟨rfl, w, rest, hd, hperform⟩ := perform_beyond (e := e) ho hroom h
    have hfails : (Instr.plain .output : Instr Offset).perform (s.limited (n, e)).store = _ :=
      hperform
    refine ⟨rfl, w, rest, hd, ?_, ?_⟩
    · rw [houtcome', hfails]
      rfl
    · rw [hstate', hfails]
      rfl

theorem printed_step (code : Code) (s : State) :
    ∃ bs : Array UInt8, (step code s).state.printed = s.printed ++ bs := by
  cases hf : fetch code s.ip with
  | error f =>
    rw [(step_of_fetch_error hf).2]
    exact ⟨#[], by simp⟩
  | ok i =>
    rw [State.printed, store_step hf]
    rcases output_perform s.store i with h | ⟨bs, h⟩
    · rw [h]
      exact ⟨#[], by simp [State.printed]⟩
    · rw [h]
      exact ⟨_, rfl⟩

end Step

section Run

variable {code : Code} {s : State} {n : Nat} {e : IoError}

theorem printed_run (code : Code) (s : State) {k m : Nat} (hkm : k ≤ m) :
    ∃ bs : Array UInt8, (run code m s).2.printed = (run code k s).2.printed ++ bs := by
  induction hkm with
  | refl => exact ⟨#[], by simp⟩
  | @step m _ ih =>
    by_cases hruns : (run code m s).1 = .running
    · obtain ⟨earlier, hearlier⟩ := ih
      obtain ⟨bs, hbs⟩ := printed_step code (run code m s).2
      rw [run_next hruns]
      exact ⟨earlier ++ bs, by rw [hbs, hearlier, Array.append_assoc]⟩
    · rwa [run_ended hruns]

theorem size_printed_le (code : Code) (s : State) {k m : Nat} (hkm : k ≤ m) :
    (run code k s).2.printed.size ≤ (run code m s).2.printed.size := by
  obtain ⟨bs, hbs⟩ := printed_run code s hkm
  rw [hbs, Array.size_append]
  exact Nat.le_add_right _ _

/-- The first bytes of what is printed are settled as soon as they are there. -/
theorem extract_printed {k m : Nat} (hkm : k ≤ m) (h : n ≤ (run code k s).2.printed.size) :
    (run code k s).2.printed.extract 0 n = (run code m s).2.printed.extract 0 n := by
  obtain ⟨bs, hbs⟩ := printed_run code s hkm
  rw [hbs, Array.extract_append, Nat.sub_eq_zero_of_le h]
  simp

theorem walk_within {α : Type} (visit : α → Step → α)
    (hvisit : ∀ a made, visit a (made.limited (n, e)) = visit a made)
    (ho : s.store.output.limit = none) {m : Nat} (h : (run code m s).2.printed.size ≤ n) (a : α) :
    walk code visit m (s.limited (n, e)) a =
      ((walk code visit m s a).1, (walk code visit m s a).2.1.limited (n, e),
        (walk code visit m s a).2.2) := by
  -- Each step has room for what it prints, so a visitor who does not look for the limit sees the same.
  induction m generalizing s a with
  | zero => rfl
  | succ m ih =>
    have hfirst : run code 1 s = ((step code s).outcome, (step code s).state) := run_next rfl
    have hroom : (step code s).state.printed.size ≤ n := by
      have hle := size_printed_le code s (Nat.le_add_left 1 m)
      rw [hfirst] at hle
      exact Nat.le_trans hle h
    rw [run_succ] at h
    simp only [walk, step_within ho hroom, hvisit]
    cases houtcome : (step code s).outcome with
    | running =>
      rw [houtcome] at h
      simp only [Step.limited, houtcome]
      exact ih ((output_step code s).1.trans ho) h _
    | halted =>
      simp only [Step.limited, houtcome]
    | failed f =>
      simp only [Step.limited, houtcome]

theorem run_within (ho : s.store.output.limit = none) {m : Nat}
    (h : (run code m s).2.printed.size ≤ n) :
    run code m (s.limited (n, e)) = ((run code m s).1, (run code m s).2.limited (n, e)) := by
  have hwalk := walk_within (e := e) (fun (_ : Unit) _ => ()) (fun _ _ => rfl) ho h ()
  simp only [run, hwalk]

/-- There is a step that prints more than there is room for, if a run does. -/
theorem exists_beyond {m : Nat} (hroom : s.printed.size ≤ n)
    (h : n < (run code m s).2.printed.size) :
    ∃ k < m, (run code k s).1 = .running ∧ (run code k s).2.printed.size ≤ n ∧
      n < (run code (k + 1) s).2.printed.size := by
  induction m with
  | zero => exact absurd hroom (Nat.not_le_of_lt h)
  | succ m ih =>
    by_cases hsooner : n < (run code m s).2.printed.size
    · obtain ⟨k, hk, hbeyond⟩ := ih hsooner
      exact ⟨k, Nat.lt_succ_of_lt hk, hbeyond⟩
    · refine ⟨m, Nat.lt_succ_self m, ?_, Nat.le_of_not_lt hsooner, h⟩
      refine Decidable.byContradiction fun hended => hsooner ?_
      rwa [run_ended hended] at h

/-- What becomes of a run, with a limit and without, from the step on that prints more than there is
room for: the runs are the same up to that step, which is an `out`; with the limit it fails, and
nothing follows. -/
structure CutShort (code : Code) (free held : Nat → Outcome × State) (n : Nat) (e : IoError)
    (printed : Array UInt8) (k : Nat) : Prop where
  same : ∀ j ≤ k, (free j).1 = .running ∧ held j = (.running, (free j).2.limited (n, e))
  fetched : fetch code (free k).2.ip = .ok (.plain .output)
  ended : ∃ w rest, (free k).2.store.data = w :: rest ∧
    ∀ j > k, held j = (.failed (.io e), (free k).2.full rest n e printed)

theorem cut_short (ho : s.store.output.limit = none) (hroom : s.printed.size ≤ n) {m : Nat}
    (h : n < (run code m s).2.printed.size) :
    ∃ k < m, CutShort code (fun j => run code j s) (fun j => run code j (s.limited (n, e))) n e
      (run code m s).2.printed k := by
  obtain ⟨k, hkm, hruns, hkeeps, hbeyond⟩ := exists_beyond hroom h
  have hheld : ∀ j ≤ k, (run code j s).1 = .running ∧
      run code j (s.limited (n, e)) = (.running, (run code j s).2.limited (n, e)) := by
    intro j hj
    have hruns' : (run code j s).1 = .running := by
      refine Decidable.byContradiction fun hended => hended ?_
      rwa [run_stays hended hj] at hruns
    refine ⟨hruns', ?_⟩
    rw [run_within ho (Nat.le_trans (size_printed_le code s hj) hkeeps), hruns']
  have hfree : (run code k s).2.store.output.limit = none :=
    (output_reaches (reaches_run code k s)).1.trans ho
  have hsettled : (run code (k + 1) s).2.printed.extract 0 n =
      (run code m s).2.printed.extract 0 n :=
    extract_printed hkm (Nat.le_of_lt hbeyond)
  rw [run_next hruns] at hbeyond hsettled
  obtain ⟨hout, w, rest, hdata, houtcome, hstate⟩ := step_beyond (e := e) hfree hkeeps hbeyond
  refine ⟨k, hkm, hheld, hout, w, rest, hdata, ?_⟩
  -- The step after `k` fails, so that all that follow it stay there.
  have hnext : run code (k + 1) (s.limited (n, e)) =
      (.failed (.io e), (run code k s).2.full rest n e (run code m s).2.printed) := by
    have hlimited := (hheld k (Nat.le_refl k)).2
    rw [run_next (by rw [hlimited]), hlimited, houtcome, hstate, State.full, hsettled]
    rfl
  intro j hj
  have hended : (run code (k + 1) (s.limited (n, e))).1 ≠ .running := by
    rw [hnext]
    simp
  exact (run_stays hended hj).trans hnext

end Run

section Execute

variable {α : Type} {visit : α → Event → α} {code : Code} {p : Processor} {n : Nat} {e : IoError}

def Processor.limited (p : Processor) (room : Nat × IoError) : Processor :=
  ⟨p.input, p.output.limited room⟩

def Execution.limited (x : Execution α) (room : Nat × IoError) : Execution α :=
  { x with processor := x.processor.limited room }

theorem execute_within (ho : p.output.limit = none) {m : Nat}
    (h : (run code m (.start p.input p.output)).2.printed.size ≤ n) (a : α) :
    (p.limited (n, e)).execute visit code m a =
      (p.execute visit code m a).map fun x => x.limited (n, e) := by
  have hwalk := walk_within (e := e) (fun a made => made.events.foldl visit a)
    (fun _ _ => rfl) ho h a
  have hstart : State.start (p.limited (n, e)).input (p.limited (n, e)).output =
      (State.start p.input p.output).limited (n, e) := rfl
  simp only [Processor.execute, hstart, hwalk, Option.map_map]
  rfl

theorem execute_beyond (ho : p.output.limit = none) (hw : p.output.written = #[]) {m : Nat}
    (h : n < (run code m (.start p.input p.output)).2.printed.size) (a : α) :
    ∃ x, (p.limited (n, e)).execute visit code m a = some x ∧ x.verdict = .error (.io e) ∧
      x.printed = (run code m (.start p.input p.output)).2.printed.extract 0 n := by
  have hroom : (State.start p.input p.output).printed.size ≤ n := by
    simp [State.printed, State.start, Store.fresh, hw]
  obtain ⟨k, hkm, hcut⟩ := cut_short (e := e) ho hroom h
  obtain ⟨w, rest, -, hheld⟩ := hcut.ended
  have hends : run code m (.start (p.limited (n, e)).input (p.limited (n, e)).output) = _ :=
    hheld m hkm
  have hverdict :
      (run code m (.start (p.limited (n, e)).input (p.limited (n, e)).output)).1.verdict? =
        some (.error (.io e)) := by
    rw [hends]
    rfl
  obtain ⟨x, hx⟩ := exists_execute hverdict visit a
  obtain ⟨verdict, hverdict', hx₁, hx₂⟩ := execute_eq_some hx
  rw [hends] at hverdict' hx₁ hx₂
  cases hverdict'
  refine ⟨x, hx, ?_, ?_⟩
  · rw [hx₁, Verdict.andAlso_error]
  · rw [hx₂]
    simp [State.full, Output.since, Output.limited, Processor.limited, hw,
      Nat.min_eq_left (Nat.le_of_lt h)]

end Execute

/-- A run with room for `n` bytes, `held`, against the same run without a limit, `free`.

As long as no more than `n` bytes are printed, both are the same: each state, its outcome, and what
is made of the run when it ends. If more are printed, the run with the limit is the other one cut
short at an `out`. What it has printed are the first `n` bytes of all that the other one ever
prints. -/
theorem limited_prefix (code : Code) (input : Input) (flush : Option IoError) (n : Nat)
    (e : IoError) :
    let p : Processor := ⟨input, ⟨#[], none, flush⟩⟩
    let free m := run code m (.start input p.output)
    let held m := run code m (.start input (p.output.limited (n, e)))
    (∀ m, (free m).2.printed.size ≤ n →
      held m = ((free m).1, (free m).2.limited (n, e)) ∧
      ∀ {α : Type} (visit : α → Event → α) (a : α),
        (p.limited (n, e)).execute visit code m a =
          (p.execute visit code m a).map fun x => x.limited (n, e)) ∧
    ∀ m, n < (free m).2.printed.size →
      (∃ k < m, CutShort code free held n e (free m).2.printed k) ∧
      ∀ {α : Type} (visit : α → Event → α) (a : α),
        ∃ x, (p.limited (n, e)).execute visit code m a = some x ∧ x.verdict = .error (.io e) ∧
          x.printed = (free m).2.printed.extract 0 n := by
  intro p free held
  have hroom : (State.start input p.output).printed.size ≤ n := Nat.zero_le n
  constructor
  · intro m hm
    exact ⟨run_within rfl hm, fun visit a => execute_within rfl hm a⟩
  · intro m hm
    exact ⟨cut_short rfl hroom hm, fun visit a => execute_beyond rfl rfl hm a⟩

/-- Two words are read and printed, four bytes in all. If there is room for four, nothing is
missing; if there is room for three, the second line lacks its end. -/
theorem limited_prefix_line :
    let code : Code := #[1, 2, 1, 2, 11]
    let full : IoError := ⟨.other, "disk full"⟩
    let held (n : Nat) :=
      run code 5 (.start (.ofBytes [55, 32, 56] none) ⟨#[], some (n, full), none⟩)
    ((held 4).1 = .halted ∧ (held 4).2.printed = #[55, 10, 56, 10]) ∧
      (held 3).1 = .failed (.io full) ∧ (held 3).2.printed = #[55, 10, 56] := by
  intro code full held
  let free := run code 5 (.start (.ofBytes [55, 32, 56] none) ⟨#[], none, none⟩)
  have hhalted : free.1 = .halted := by decide +kernel
  have hprinted : free.2.printed = #[55, 10, 56, 10] := by decide +kernel
  constructor
  · obtain ⟨hwithin, -⟩ := limited_prefix code (.ofBytes [55, 32, 56] none) none 4 full
    have hsame : held 4 = (free.1, free.2.limited (4, full)) :=
      (hwithin 5 (Nat.le_of_eq (congrArg Array.size hprinted))).1
    rw [hsame]
    exact ⟨hhalted, hprinted⟩
  · obtain ⟨-, hbeyond⟩ := limited_prefix code (.ofBytes [55, 32, 56] none) none 3 full
    have hmore : 3 < free.2.printed.size := by
      rw [hprinted]
      decide
    obtain ⟨k, hk, hcut⟩ := (hbeyond 5 hmore).1
    obtain ⟨w, rest, -, hended⟩ := hcut.ended
    have hheld : held 3 = _ := hended 5 hk
    rw [hheld]
    refine ⟨rfl, ?_⟩
    have hfirst : free.2.printed.extract 0 3 = #[55, 10, 56] := by
      rw [hprinted]
      decide
    exact hfirst

end StackMachine
