import StackMachine.Proofs.Machine.Faults
import StackMachine.Proofs.Machine.Memory

/-!
# StackMachine.Proofs.Machine.History

Registers and memory as the history of what was put there.

* `Put`: a word that was taken off the data stack, and the register or the address it was put at.
* `State.puts`: what a step puts where, read off the instruction and the stack before it.
* `State.history`: what any number of steps have put where, and the state after them.
* `Put.lastIn`, `Put.lastByte`: what the history says of a register and of a byte of memory.
* `Store.Takes`, `takes_step`, `keeps_step`: a step changes no more of registers and memory than what
  it puts there.
* `history_holds`: registers and memory are what the history says.
* `moves_exact`: so are the words and the addresses that instructions read from them.
-/

namespace StackMachine

/-- A word and the place it was put at. -/
inductive Put where
  | reg (r : Reg) (w : Word)
  | ram (a : Int) (w : Word)
deriving DecidableEq

/-- What an instruction puts where if it succeeds: the topmost word, at the place that it names. -/
def Instr.put? {J : Type} : Instr J → Store → Option Put
  | .reg .pop r, s => s.data.head?.map (.reg r)
  | .held .pop r, s => s.data.head?.map (.ram (s.held r))
  | .fixed .pop a, s => s.data.head?.map (.ram a.toInt)
  | _, _ => none

namespace State

/-- What the next step puts where. A step that fails puts nothing anywhere. -/
def puts (code : Code) (s : State) : List Put :=
  match (step code s).outcome, fetch code s.ip with
  | .running, .ok i => (i.put? s.store).toList
  | _, _ => []

/-- What so many steps have put where, in order, and the state after them. Any of them may follow
one that failed. -/
def history (code : Code) (s : State) : Nat → List Put × State
  | 0 => ([], s)
  | n + 1 =>
    let earlier := s.history code n
    (earlier.1 ++ earlier.2.puts code, (step code earlier.2).state)

end State

namespace Put

def inReg? (r : Reg) : Put → Option Word
  | reg r' w => if r' = r then some w else none
  | ram _ _ => none

def store? : Put → Option (Int × Word)
  | reg _ _ => none
  | ram a w => some (a, w)

/-- The last word that was put in a register; zero, if there was none. -/
def lastIn (puts : List Put) (r : Reg) : Word := (puts.filterMap (inReg? r)).getLastD .zero

/-- The byte that the last word to cover an address has there; zero, if there was none. -/
def lastByte (puts : List Put) (x : Nat) : UInt8 :=
  Ram.lastByte Ram.standardCapacity (puts.filterMap store?) x

end Put

/-- What a store is after words were put somewhere, as far as registers and memory go. -/
inductive Store.Takes (s : Store) : List Put → Store → Prop where
  | none {t : Store} : t.regs = s.regs → t.ram = s.ram → Takes s [] t
  | reg {t : Store} {r : Reg} {w : Word} : t.regs = s.regs.set r w → t.ram = s.ram →
      Takes s [.reg r w] t
  | ram {t : Store} {a : Int} {w : Word} : t.regs = s.regs → s.ram.store a w = .ok t.ram →
      Takes s [.ram a w] t

section Perform

variable {J : Type} {s : Store}

theorem keeps_perform {i : Instr J} (h : i.put? s = none) :
    (i.perform s).store.regs = s.regs ∧ (i.perform s).store.ram = s.ram := by
  -- Nothing is put anywhere, be it for want of a word.
  obtain ⟨regs, data, ram, input, output⟩ := s
  cases i with
  | plain op =>
    cases op with
    | input =>
      rw [Instr.perform, store_read]
      cases input.next.1.pushed <;> exact ⟨rfl, rfl⟩
    | output =>
      rcases print_cases (J := J) ⟨regs, data, ram, input, output⟩ with hfail | ⟨w, ds, -, hs, -⟩
      · rw [Instr.perform, hfail]
        exact ⟨rfl, rfl⟩
      · rw [Instr.perform, hs]
        exact ⟨rfl, rfl⟩
    | arith op => rcases data with _ | ⟨r, _ | ⟨l, ds⟩⟩ <;> exact ⟨rfl, rfl⟩
    | func op => cases data <;> exact ⟨rfl, rfl⟩
    | ret => exact ⟨rfl, rfl⟩
    | halt => exact ⟨rfl, rfl⟩
    | drop => cases data <;> exact ⟨rfl, rfl⟩
  | imm w => exact ⟨rfl, rfl⟩
  | reg m r =>
    cases m with
    | push => exact ⟨rfl, rfl⟩
    | pop =>
      cases data with
      | nil => exact ⟨rfl, rfl⟩
      | cons w ds => cases h
  | held m r =>
    cases m with
    | push =>
      simp only [Instr.perform, Effect.pushRam]
      split <;> exact ⟨rfl, rfl⟩
    | pop =>
      cases data with
      | nil => exact ⟨rfl, rfl⟩
      | cons w ds => cases h
  | fixed m a =>
    cases m with
    | push =>
      simp only [Instr.perform, Effect.pushRam]
      split <;> exact ⟨rfl, rfl⟩
    | pop =>
      cases data with
      | nil => exact ⟨rfl, rfl⟩
      | cons w ds => cases h
  | jump k t =>
    rw [store_perform_jump]
    exact ⟨rfl, rfl⟩

theorem takes_popRam {a : Int} {w : Word} {ds : List Word} (h : s.data = w :: ds) :
    ((Effect.popRam a s : Effect J).action = .next ∧
        s.Takes [.ram a w] (Effect.popRam a s : Effect J).store) ∨
      ∃ f, (Effect.popRam a s : Effect J) = .fail f s := by
  simp only [Effect.popRam, h]
  cases hm : s.ram.store a w with
  | ok m => exact .inl ⟨rfl, .ram rfl hm⟩
  | error f => exact .inr ⟨f, rfl⟩

theorem takes_perform {i : Instr J} {p : Put} (h : i.put? s = some p) :
    ((i.perform s).action = .next ∧ s.Takes [p] (i.perform s).store) ∨
      ∃ f, i.perform s = .fail f s := by
  have hhead : ∀ {make : Word → Put}, s.data.head?.map make = some p →
      ∃ w ds, s.data = w :: ds ∧ p = make w := by
    intro make hmake
    obtain ⟨w, hw, rfl⟩ := Option.map_eq_some_iff.mp hmake
    obtain ⟨ds, hds⟩ := List.head?_eq_some_iff.mp hw
    exact ⟨w, ds, hds, rfl⟩
  unfold Instr.put? at h
  split at h
  · obtain ⟨w, ds, hd, rfl⟩ := hhead h
    simp only [Instr.perform, Effect.popReg, hd]
    exact .inl ⟨rfl, .reg rfl rfl⟩
  · obtain ⟨w, ds, hd, rfl⟩ := hhead h
    exact takes_popRam hd
  · obtain ⟨w, ds, hd, rfl⟩ := hhead h
    exact takes_popRam hd
  · cases h

end Perform

section Step

variable {code : Code} {s : State}

theorem puts_of_failed {f : Fault} (h : (step code s).outcome = .failed f) : s.puts code = [] := by
  rw [State.puts, h]

theorem puts_of_fetch {i : Instr Offset} (hf : fetch code s.ip = .ok i)
    (hruns : (step code s).outcome = .running) : s.puts code = (i.put? s.store).toList := by
  rw [State.puts, hruns, hf]

theorem puts_of_none {i : Instr Offset} (hf : fetch code s.ip = .ok i)
    (hnone : i.put? s.store = none) : s.puts code = [] := by
  rw [State.puts, hf]
  cases (step code s).outcome with
  | running =>
    show (i.put? s.store).toList = []
    rw [hnone]
    rfl
  | halted => rfl
  | failed f => rfl

/-- A step changes no register and no byte of memory but by what it puts there. -/
theorem takes_step (code : Code) (s : State) :
    s.store.Takes (s.puts code) (step code s).state.store := by
  cases hf : fetch code s.ip with
  | error f =>
    obtain ⟨ho, hs⟩ := step_of_fetch_error hf
    rw [puts_of_failed ho, hs]
    exact .none rfl rfl
  | ok i =>
    rw [store_step hf]
    cases hp : i.put? s.store with
    | none =>
      obtain ⟨hregs, hram⟩ := keeps_perform hp
      rw [puts_of_none hf hp]
      exact .none hregs hram
    | some p =>
      rcases takes_perform hp with ⟨hnext, htakes⟩ | ⟨f, hfail⟩
      · have hruns : (step code s).outcome = .running := by
          rw [(step_of_fetch hf).1, hnext]
          rfl
        rw [puts_of_fetch hf hruns, hp]
        exact htakes
      · have hfails : (step code s).outcome = .failed f := by
          rw [(step_of_fetch hf).1, hfail]
          rfl
        rw [puts_of_failed hfails, hfail]
        exact .none rfl rfl

theorem keeps_step (h : s.puts code = []) :
    (step code s).state.store.regs = s.store.regs ∧
      (step code s).state.store.ram = s.store.ram := by
  have htakes := takes_step code s
  rw [h] at htakes
  cases htakes with
  | none hregs hram => exact ⟨hregs, hram⟩

end Step

section History

variable {code : Code} {s t : Store} {puts more : List Put}

/-- Registers and memory are what the history says. -/
structure Store.Holds (s : Store) (puts : List Put) : Prop where
  regs : ∀ r, s.regs.get r = Put.lastIn puts r
  ram : s.ram = (Ram.zero Ram.standardCapacity).replay (puts.filterMap Put.store?)

theorem holds_fresh (input : Input) (output : Output) : (Store.fresh input output).Holds [] :=
  ⟨Registers.get_zero, rfl⟩

theorem lastIn_concat_reg (puts : List Put) (r r' : Reg) (w : Word) :
    Put.lastIn (puts ++ [.reg r w]) r' = if r' = r then w else Put.lastIn puts r' := by
  by_cases h : r' = r
  · simp [Put.lastIn, Put.inReg?, h]
  · have h' : ¬ r = r' := fun e => h e.symm
    simp [Put.lastIn, Put.inReg?, h, h']

theorem lastIn_concat_ram (puts : List Put) (r : Reg) (a : Int) (w : Word) :
    Put.lastIn (puts ++ [.ram a w]) r = Put.lastIn puts r := by
  simp [Put.lastIn, Put.inReg?]

theorem Store.Holds.takes (h : s.Holds puts) (ht : s.Takes more t) : t.Holds (puts ++ more) := by
  cases ht with
  | none hregs hram =>
    rw [List.append_nil]
    exact ⟨by rw [hregs]; exact h.regs, by rw [hram, h.ram]⟩
  | @reg _ r w hregs hram =>
    refine ⟨?_, ?_⟩
    · intro r'
      rw [hregs, Registers.get_set, lastIn_concat_reg, h.regs]
    · rw [hram, h.ram, List.filterMap_append]
      exact congrArg _ (List.append_nil _).symm
  | @ram _ a w hregs hstore =>
    refine ⟨?_, ?_⟩
    · intro r
      rw [hregs, lastIn_concat_ram, h.regs]
    · have hattempt : s.ram.attempt a w = t.ram := by simp only [Ram.attempt, hstore]
      rw [← hattempt, h.ram, List.filterMap_append, Ram.replay_append]
      rfl

theorem history_holds (code : Code) (input : Input) (output : Output) (n : Nat) :
    let reached := (State.start input output).history code n
    reached.2.store.Holds reached.1 := by
  induction n with
  | zero => exact holds_fresh input output
  | succ n ih => exact ih.takes (takes_step code _)

variable (h : s.Holds puts)
include h

theorem Store.Holds.byte (x : Nat) : s.ram.byte x = Put.lastByte puts x := by
  rw [h.ram, Ram.byte_replay, Put.lastByte]

theorem Store.Holds.capacity : s.ram.capacity = 51200 := by
  rw [h.ram, Ram.capacity_replay]
  rfl

theorem Store.Holds.held (r : Reg) : s.held r = (Put.lastIn puts r).toNat := by
  rw [Store.held, h.regs]

end History

section Read

variable {code : Code} {s : State} {i : Instr Offset}

/-- The next step succeeds, with one more word on the data stack. -/
def State.Pushes (code : Code) (s : State) (w : Word) : Prop :=
  (step code s).outcome = .running ∧ (step code s).state.store.data = w :: s.store.data

/-- The next step succeeds in putting the topmost word somewhere, and takes it off the stack. -/
def State.Pops (code : Code) (s : State) (p : Put) (rest : List Word) : Prop :=
  (step code s).outcome = .running ∧ s.puts code = [p] ∧ (step code s).state.store.data = rest

/-- The address at which an instruction moves a word. If a register holds it, it is the last number
that was put there. -/
inductive Put.Addresses (puts : List Put) (m : Move) : Instr Offset → Int → Prop where
  | fixed (x : Int32) : Addresses puts m (.fixed m x) x.toInt
  | held (r : Reg) : Addresses puts m (.held m r) (lastIn puts r).toNat

theorem running_of_next {st : Store} (hf : fetch code s.ip = .ok i)
    (hi : i.perform s.store = .next st) :
    (step code s).outcome = .running ∧ (step code s).state.store = st := by
  rw [(step_of_fetch hf).1, store_step hf, hi]
  exact ⟨rfl, rfl⟩

theorem pushes_of_next {w : Word} (hf : fetch code s.ip = .ok i)
    (hi : i.perform s.store = .next (s.store.push w)) : s.Pushes code w := by
  obtain ⟨hruns, hstore⟩ := running_of_next hf hi
  exact ⟨hruns, by rw [hstore]; rfl⟩

theorem pops_of_next {st : Store} {p : Put} (hf : fetch code s.ip = .ok i)
    (hi : i.perform s.store = .next st) (hp : i.put? s.store = some p) :
    s.Pops code p st.data := by
  obtain ⟨hruns, hstore⟩ := running_of_next hf hi
  exact ⟨hruns, by rw [puts_of_fetch hf hruns, hp]; rfl, by rw [hstore]⟩

variable {puts : List Put}

theorem pushes_of_addresses (h : s.store.Holds puts) (hf : fetch code s.ip = .ok i) {a : Int}
    (ha : Put.Addresses puts .push i a) (hin : 0 ≤ a ∧ a + 8 ≤ 51200) :
    ∃ w, s.Pushes code w ∧ ∀ k < 8, w.byteAt k = Put.lastByte puts (a.toNat + k) := by
  have hload : s.store.ram.load a = .ok (s.store.ram.word a.toNat) := by
    apply Ram.load_of_fits
    rw [Ram.fits_iff, h.capacity]
    exact hin
  have hpush : (Effect.pushRam a s.store : Effect Offset) =
      .next (s.store.push (s.store.ram.word a.toNat)) := by
    rw [Effect.pushRam, hload]
  refine ⟨s.store.ram.word a.toNat, pushes_of_next hf ?_, ?_⟩
  · cases ha with
    | fixed x => exact hpush
    | held r =>
      rw [Instr.perform, h.held]
      exact hpush
  · intro k hk
    rw [Ram.byteAt_word _ _ hk, h.byte]

theorem pops_of_reg {r : Reg} {w : Word} {rest : List Word}
    (hf : fetch code s.ip = .ok (.reg .pop r)) (hd : s.store.data = w :: rest) :
    s.Pops code (.reg r w) rest := by
  have hpop : (Instr.reg .pop r : Instr Offset).perform s.store =
      .next { s.store with data := rest, regs := s.store.regs.set r w } := by
    simp only [Instr.perform, Effect.popReg, hd]
  exact pops_of_next hf hpop (by rw [Instr.put?, hd]; rfl)

theorem pops_of_addresses (h : s.store.Holds puts) (hf : fetch code s.ip = .ok i) {a : Int}
    (ha : Put.Addresses puts .pop i a) (hin : 0 ≤ a ∧ a + 8 ≤ 51200) {w : Word}
    {rest : List Word} (hd : s.store.data = w :: rest) : s.Pops code (.ram a w) rest := by
  have hstore : s.store.ram.store a w = .ok (s.store.ram.write a.toNat w.bytes) := by
    apply Ram.store_of_fits
    rw [Ram.fits_iff, h.capacity]
    exact hin
  have hpop : (Effect.popRam a s.store : Effect Offset) =
      .next { s.store with data := rest, ram := s.store.ram.write a.toNat w.bytes } := by
    simp only [Effect.popRam, hd, hstore]
  cases ha with
  | fixed x => exact pops_of_next hf hpop (by rw [Instr.put?, hd]; rfl)
  | held r =>
    rw [← h.held] at hpop ⊢
    exact pops_of_next hf hpop (by rw [Instr.put?, hd]; rfl)

theorem fetch_imm {a : Nat} {w : Word} (h : fetch code a = .ok (.imm w)) :
    ∀ k < 8, code[a + 1 + k]? = some (w.byteAt k) := by
  have hle : a + 9 ≤ code.size := fetch_le h
  have hd := decode_of_fetch h
  simp only [Instr.opcode, Opcode.decode?, Option.some.injEq, Instr.imm.injEq] at hd
  have hlength : (code.extract (a + 1) (a + Opcode.imm.size)).toList.length = 8 := by
    rw [Array.length_toList, Array.size_extract]
    show min (a + 9) code.size - (a + 1) = 8
    omega
  intro k hk
  rw [← Word.getElem?_bytes w hk, ← hd, Word.bytes_ofBytes hlength, Array.getElem?_toList,
    Array.getElem?_extract]
  have hk' : k < min (a + Opcode.imm.size) code.size - (a + 1) := by
    show k < min (a + 9) code.size - (a + 1)
    omega
  rw [if_pos hk']

/-- Only three instructions put a word anywhere. -/
theorem puts_of_opcode (h : ∀ op, opcodeAt code s.ip = .ok op →
    op ≠ .reg .pop ∧ op ≠ .held .pop ∧ op ≠ .fixed .pop) : s.puts code = [] := by
  cases hf : fetch code s.ip with
  | error f => exact puts_of_failed (step_of_fetch_error hf).1
  | ok i =>
    obtain ⟨hreg, hheld, hfixed⟩ := h i.opcode (fetch_eq_ok_iff.mp hf).1
    refine puts_of_none hf ?_
    unfold Instr.put?
    split
    · exact absurd rfl hreg
    · exact absurd rfl hheld
    · exact absurd rfl hfixed
    · rfl

end Read

/-- After any number of steps from the start, of which some may have failed, a register holds the
last word that was popped into it, and a byte of memory is that of the last word that was popped
over it. These very words are pushed again, and a register is read as an address in the same way; a
constant is pushed as it stands in the code. No other instruction, and no step that fails, changes
a register or a byte of memory. -/
theorem moves_exact (code : Code) (input : Input) (output : Output) (n : Nat) :
    let reached := (State.start input output).history code n
    let puts := reached.1
    let s := reached.2
    (∀ r, s.store.regs.get r = Put.lastIn puts r) ∧
      (∀ x, s.store.ram.byte x = Put.lastByte puts x) ∧
      (∀ w, fetch code s.ip = .ok (.imm w) →
        s.Pushes code w ∧ ∀ k < 8, code[s.ip + 1 + k]? = some (w.byteAt k)) ∧
      (∀ r, fetch code s.ip = .ok (.reg .push r) → s.Pushes code (Put.lastIn puts r)) ∧
      (∀ i a, fetch code s.ip = .ok i → Put.Addresses puts .push i a → 0 ≤ a ∧ a + 8 ≤ 51200 →
        ∃ w, s.Pushes code w ∧ ∀ k < 8, w.byteAt k = Put.lastByte puts (a.toNat + k)) ∧
      (∀ r w rest, fetch code s.ip = .ok (.reg .pop r) → s.store.data = w :: rest →
        s.Pops code (.reg r w) rest) ∧
      (∀ i a w rest, fetch code s.ip = .ok i → Put.Addresses puts .pop i a →
        0 ≤ a ∧ a + 8 ≤ 51200 → s.store.data = w :: rest → s.Pops code (.ram a w) rest) ∧
      ∀ t : State, ((∃ f, (step code t).outcome = .failed f) ∨
          ∀ op, opcodeAt code t.ip = .ok op →
            op ≠ .reg .pop ∧ op ≠ .held .pop ∧ op ≠ .fixed .pop) →
        (step code t).state.store.regs = t.store.regs ∧
          (step code t).state.store.ram = t.store.ram := by
  intro reached puts s
  have h : s.store.Holds puts := history_holds code input output n
  refine ⟨h.regs, h.byte, ?_, ?_, ?_, ?_, ?_, ?_⟩
  · intro w hf
    exact ⟨pushes_of_next hf rfl, fetch_imm hf⟩
  · intro r hf
    rw [← h.regs]
    exact pushes_of_next hf rfl
  · intro i a hf ha hin
    exact pushes_of_addresses h hf ha hin
  · intro r w rest hf hd
    exact pops_of_reg hf hd
  · intro i a w rest hf ha hin hd
    exact pops_of_addresses h hf ha hin hd
  · intro t ht
    refine keeps_step ?_
    rcases ht with ⟨f, hfails⟩ | hother
    · exact puts_of_failed hfails
    · exact puts_of_opcode hother

/-- A NaN goes through a register and to an odd address; a word that has no room stays where it is. -/
example :
    let code : Code := #[14, 1, 0, 0, 0, 0, 0, 0xf0, 0x7f, 17, 1, 13, 1, 18, 3, 0, 0, 0, 13, 1, 19, 1]
    ((State.start (.ofBytes [] none) .unlimited).history code 6).1 =
      [.reg .bx ⟨0x7ff0000000000001⟩, .ram 3 ⟨0x7ff0000000000001⟩] := by decide +kernel

end StackMachine
