import StackMachine.Proofs.Assembly.Placement
import StackMachine.Proofs.Machine.Control
import StackMachine.Proofs.Machine.Execution
import StackMachine.Proofs.Machine.Reference

/-!
# StackMachine.Proofs.Machine.Lockstep

The emitted code does what the statements say, step for step.

* `Reference.State.located`: a state of the reference machine with addresses for its indices.
* `Follows`: an effect, and the transfer of control after it, comes to a located result.
* `step_located`: a step of the processor from a located state is a located step of the reference
  machine, whether it goes on, halts or fails.
* `run_located`: the same of runs.
* `run_assemble`: for the code of a source text, from the start.
-/

namespace StackMachine

/-- The state of the processor that stands for a state of the reference machine: every index is
the address of its instruction. -/
def Reference.State.located (is : List (Instr Label)) (s : Reference.State) :
    StackMachine.State :=
  ⟨Instr.address is s.index, s.calls.map (Instr.address is), s.store⟩

def Reference.located (is : List (Instr Label)) (r : Outcome × Reference.State) :
    Outcome × StackMachine.State := (r.1, r.2.located is)

section Transfer

variable (is : List (Instr Label)) (code : Code) (s : Reference.State)

/-- Control goes on or fails after the effect of an instruction, as the reference machine does. -/
def Follows (e : Effect Offset) (r : Outcome × Reference.State) : Prop :=
  ({ s.located is with store := e.store } : State).transfer code
    (Instr.address is (s.index + 1)) e.action = Reference.located is r

theorem read_located : Follows is code s (Effect.read s.store) s.read := by
  simp only [Follows, Effect.read, Reference.State.read]
  cases s.store.input.next.1 <;> rfl

theorem print_located {w : Word} {rest : List Word} (h : s.store.data = w :: rest) :
    Follows is code s (Effect.print s.store) (s.print w rest) := by
  simp only [Follows, Effect.print, Reference.State.print, h]
  cases (s.store.output.write w.line).1 <;> rfl

theorem load_located (a : Int) : Follows is code s (Effect.pushRam a s.store) (s.load a) := by
  simp only [Follows, Effect.pushRam, Reference.State.load]
  cases s.store.ram.load a <;> rfl

theorem save_located {w : Word} {rest : List Word} (h : s.store.data = w :: rest) (a : Int) :
    Follows is code s (Effect.popRam a s.store) (s.save a w rest) := by
  simp only [Follows, Effect.popRam, Reference.State.save, h]
  cases s.store.ram.store a w <;> rfl

end Transfer

section Listing

variable {l : Listing} {code : Code}

/-- A jump whose distance is that to a label leads to the instruction the label stands before, and
nowhere if there is none. -/
theorem jumpTarget?_located (hl : l.Coherent) (hc : l.Placed code) {k : Nat} {d : Offset}
    {name : String} {target : Nat} (ht : l.symbols.get? name = some target)
    (hd : (Instr.address l.instrs k : Int) + d.toInt = target) :
    jumpTarget? code (Instr.address l.instrs k) d =
      (Reference.target? l.statements.toList name).map (Instr.address l.instrs) := by
  rw [hl.get?_eq] at ht
  obtain ⟨m, hm, rfl⟩ := Option.map_eq_some_iff.mp ht
  have hsize : code.size = Instr.address l.instrs l.instrs.length := hc.size_eq
  simp only [jumpTarget?, hd, Reference.target?, hm]
  by_cases hlt : m < l.instrs.length
  · have hin : Instr.address l.instrs m < code.size := by
      rw [hsize]
      exact Instr.address_lt_iff.mpr hlt
    have hlt' : m < (Statement.instrs l.statements.toList).length := hlt
    rw [if_pos (by omega)]
    simp [Option.filter, hlt']
  · have hout : ¬ Instr.address l.instrs m < code.size := by
      rw [hsize]
      exact fun h => hlt (Instr.address_lt_iff.mp h)
    have hlt' : ¬ m < (Statement.instrs l.statements.toList).length := hlt
    rw [if_neg (by omega)]
    simp [Option.filter, hlt']

theorem enter_located (hl : l.Coherent) (hc : l.Placed code) {s : Reference.State} {d : Offset}
    {name : String} {target : Nat} (ht : l.symbols.get? name = some target)
    (hd : (Instr.address l.instrs s.index : Int) + d.toInt = target) (calls : List Nat) :
    (s.located l.instrs).enter code d (calls.map (Instr.address l.instrs)) =
      Reference.located l.instrs (s.jump l.statements.toList name calls) := by
  have hj := jumpTarget?_located hl hc ht hd
  simp only [State.enter, Reference.State.located, Reference.State.jump] at hj ⊢
  rw [hj]
  cases Reference.target? l.statements.toList name <;> rfl

theorem execute_located (hl : l.Coherent) (hc : l.Placed code) {s : Reference.State}
    {i : Instr Label} {j : Instr Offset}
    (hm : i.Means l.symbols (Instr.address l.instrs s.index) j) :
    Follows l.instrs code s (j.perform s.store) (s.execute l.statements.toList i) := by
  -- What an instruction does to the store is computed on both sides; what it does to control is the
  -- transfer to a located place.
  obtain ⟨index, calls, regs, data, ram, input, output⟩ := s
  cases hm with
  | plain op =>
    cases op with
    | input => exact read_located _ _ _
    | output =>
      rcases data with _ | ⟨w, rest⟩
      · rfl
      · exact print_located _ _ _ rfl
    | arith op => rcases data with _ | ⟨r, _ | ⟨w, rest⟩⟩ <;> rfl
    | func op => cases data <;> rfl
    | ret => cases calls <;> rfl
    | halt => rfl
    | drop => cases data <;> rfl
  | imm w => rfl
  | reg m r =>
    cases m with
    | push => rfl
    | pop => cases data <;> rfl
  | held m r =>
    cases m with
    | push => exact load_located _ _ _ _
    | pop =>
      rcases data with _ | ⟨w, rest⟩
      · rfl
      · exact save_located _ _ _ rfl _
  | fixed m a =>
    cases m with
    | push => exact load_located _ _ _ _
    | pop =>
      rcases data with _ | ⟨w, rest⟩
      · rfl
      · exact save_located _ _ _ rfl _
  | @jump k t d target ht hd =>
    cases k with
    | always =>
      rw [Follows, Instr.perform, State.transfer_jump]
      exact enter_located hl hc ht hd calls
    | call =>
      rw [Follows, Instr.perform, State.transfer_call]
      exact enter_located hl hc ht hd ((index + 1) :: calls)
    | when c =>
      rcases data with _ | ⟨r, _ | ⟨w, rest⟩⟩
      · rfl
      · rfl
      · show Follows _ _ _ _ (if c.holds w r then _ else _)
        simp only [Follows, Instr.perform, Effect.branch]
        cases c.holds w r with
        | true =>
          rw [if_pos rfl, if_pos rfl, State.transfer_jump]
          exact enter_located hl hc ht hd calls
        | false => rfl

theorem step_located (hl : l.Coherent) (hc : l.Placed code) (s : Reference.State) :
    ((step code (s.located l.instrs)).outcome, (step code (s.located l.instrs)).state) =
      Reference.located l.instrs (Reference.step l.statements.toList s) := by
  cases hi : l.instrs[s.index]? with
  | none =>
    have hf : fetch code (s.located l.instrs).ip = .error .invalidInstructionPointer := by
      apply fetch_of_size_le
      show code.size ≤ Instr.address l.instrs s.index
      rw [Instr.address_of_length_le (List.getElem?_eq_none_iff.mp hi), hc.size_eq]
      exact Nat.le_refl _
    obtain ⟨ho, hs⟩ := step_of_fetch_error hf
    have hi' : (Statement.instrs l.statements.toList)[s.index]? = none := hi
    rw [ho, hs, Reference.step, hi']
    rfl
  | some i =>
    obtain ⟨j, hf, hm⟩ := hc.fetch hi
    obtain ⟨ho, hs⟩ := step_of_fetch (s := s.located l.instrs) hf
    have hi' : (Statement.instrs l.statements.toList)[s.index]? = some i := hi
    have hnext : (s.located l.instrs).ip + j.size = Instr.address l.instrs (s.index + 1) := by
      rw [Instr.address_succ hi, hm.size_eq]
      rfl
    rw [ho, hs, hnext, Reference.step, hi']
    exact execute_located hl hc hm

theorem run_located (hl : l.Coherent) (hc : l.Placed code) (n : Nat) (s : Reference.State) :
    run code n (s.located l.instrs) =
      Reference.located l.instrs (Reference.run l.statements.toList n s) := by
  induction n generalizing s with
  | zero => rfl
  | succ n ih =>
    have hstep := step_located hl hc s
    obtain ⟨o, t, ho⟩ : ∃ o t, Reference.step l.statements.toList s = (o, t) := ⟨_, _, rfl⟩
    rw [ho] at hstep
    obtain ⟨h₁, h₂⟩ := Prod.mk.inj hstep
    rw [run_succ, Reference.run, ho]
    simp only at h₁ h₂
    rw [h₁, h₂]
    cases o with
    | running => exact ih t
    | halted => rfl
    | failed f => rfl

end Listing

theorem located_start (is : List (Instr Label)) (input : Input) (output : Output) :
    (Reference.State.start input output).located is = .start input output := by
  simp [Reference.State.located, Reference.State.start, State.start]

/-- Assembling preserves meaning. After any number of steps, code and the statements that it was
assembled from have gone on, halted or failed alike, with equal stores, and `ip` and the return
addresses are the addresses of the instructions that the statements are at. -/
theorem run_assemble {source : String} {code : Code} (h : assemble source = .ok code) :
    ∃ l, Listing.ofText? source.toList = .ok l ∧
      ∀ (input : Input) (output : Output) (n : Nat),
        run code n (.start input output) =
          Reference.located l.instrs
            (Reference.run l.statements.toList n (.start input output)) := by
  obtain ⟨l, hl, he⟩ := listing_of_assemble h
  refine ⟨l, hl, ?_⟩
  intro input output n
  rw [← located_start l.instrs]
  exact run_located (Listing.coherent_ofText? hl) (Listing.placed_of_emit he) n _

/-- A call forward, a jump back, a label between and one at the very end. -/
theorem run_assemble_call :
    let source := "call go halt\nback: out\ngo: je back ret end:"
    ∃ code l, assemble source = .ok code ∧ Listing.ofText? source.toList = .ok l ∧
      ∀ (input : Input) (output : Output) (n : Nat),
        run code n (.start input output) =
          Reference.located l.instrs
            (Reference.run l.statements.toList n (.start input output)) := by
  intro source
  have h : assemble source = .ok #[27, 7, 0, 0, 0, 11, 2, 21, 255, 255, 255, 255, 10] := by
    decide +kernel
  obtain ⟨l, hl, hrun⟩ := run_assemble h
  exact ⟨_, l, h, hl, hrun⟩

end StackMachine
