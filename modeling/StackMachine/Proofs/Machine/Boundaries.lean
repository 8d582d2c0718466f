import StackMachine.Proofs.Assembly.Placement
import StackMachine.Proofs.Machine.Control
import StackMachine.Proofs.Machine.Execution

/-!
# StackMachine.Proofs.Machine.Boundaries

Emitted code is only ever entered at its instructions.

* `Listing.Boundary`: an address where an instruction starts, or the end of the code.
* `Aligned`: `ip` and all return addresses are boundaries. Every way in which control can go on
  keeps it (`aligned_step`), so it holds of all that is reached.
* `run_assemble_aligned`: for the code of a source text, from the start, with what follows for the
  faults in which a run can end.
-/

namespace StackMachine

/-- Where an instruction of a listing starts, or the end of its code. -/
def Listing.Boundary (l : Listing) (code : Code) (a : Nat) : Prop :=
  (∃ k, k < l.instrs.length ∧ a = Instr.address l.instrs k) ∨ a = code.size

structure Aligned (l : Listing) (code : Code) (s : State) : Prop where
  ip : l.Boundary code s.ip
  calls : ∀ a ∈ s.calls, l.Boundary code a

section Listing

variable {l : Listing} {code : Code}

theorem boundary_address (hc : l.Placed code) {k : Nat} (h : k ≤ l.instrs.length) :
    l.Boundary code (Instr.address l.instrs k) := by
  by_cases hk : k < l.instrs.length
  · exact .inl ⟨k, hk, rfl⟩
  · have hk' : k = l.instrs.length := by omega
    right
    rw [hc.size_eq, hk', Listing.extent]

theorem fetch_boundary (hc : l.Placed code) {a : Nat} (h : l.Boundary code a) :
    (∃ k i j, l.instrs[k]? = some i ∧ a = Instr.address l.instrs k ∧ fetch code a = .ok j ∧
        i.Means l.symbols a j) ∨
      (a = code.size ∧ fetch code a = .error .invalidInstructionPointer) := by
  rcases h with ⟨k, hk, rfl⟩ | rfl
  · have hi := List.getElem?_eq_getElem hk
    obtain ⟨j, hf, hm⟩ := hc.fetch hi
    exact .inl ⟨k, _, j, hi, rfl, hf, hm⟩
  · exact .inr ⟨rfl, fetch_of_size_le (Nat.le_refl _)⟩

theorem boundary_of_jump (hl : l.Coherent) (hc : l.Placed code) {a : Nat} {i : Instr Label}
    {k : Jump} {d : Offset} (hm : i.Means l.symbols a (.jump k d)) :
    ∃ t, (a : Int) + d.toInt = (t : Nat) ∧ t ≤ code.size ∧ l.Boundary code t := by
  cases hm with
  | @jump k label d target ht hd =>
    rw [hl.get?_eq] at ht
    obtain ⟨m, hm, rfl⟩ := Option.map_eq_some_iff.mp ht
    have hle : m ≤ l.instrs.length := Statement.index?_le hm
    refine ⟨_, hd, ?_, boundary_address hc hle⟩
    rw [hc.size_eq]
    exact Instr.address_mono hle

theorem boundary_of_goes (hl : l.Coherent) (hc : l.Placed code) {s : State}
    (hs : Aligned l code s) {j : Instr Offset} (hf : fetch code s.ip = .ok j) {o : Outcome}
    {ip : Nat} {calls : List Nat} (h : Goes code s j o ip calls) :
    l.Boundary code ip ∧ ∀ a ∈ calls, l.Boundary code a := by
  rcases fetch_boundary hc hs.ip with ⟨k, i, j', hi, ha, hf', hm⟩ | ⟨-, hf'⟩
  · rw [hf] at hf'
    cases hf'
    have hfollowing : l.Boundary code (s.ip + j.size) := by
      have hk : k < l.instrs.length := (List.getElem?_eq_some_iff.mp hi).1
      rw [ha, ← hm.size_eq.symm, ← Instr.address_succ hi]
      exact boundary_address hc hk
    have htarget : ∀ {kind : Jump} {d : Offset} {t : Nat}, j = .jump kind d →
        jumpTarget? code s.ip d = some t → l.Boundary code t := by
      intro kind d t hj ht
      rw [hj] at hm
      obtain ⟨t', hd, -, hb⟩ := boundary_of_jump hl hc hm
      have heq := jumpTarget?_eq_some ht
      have : t = t' := by omega
      rw [this]
      exact hb
    cases h with
    | next => exact ⟨hfollowing, hs.calls⟩
    | jump hj _ _ ht => exact ⟨htarget hj ht, hs.calls⟩
    | call hj ht =>
      refine ⟨htarget hj ht, ?_⟩
      intro a ha
      rcases List.mem_cons.mp ha with rfl | ha
      · exact hfollowing
      · exact hs.calls a ha
    | ret _ hcalls =>
      refine ⟨hs.calls _ (by simp [hcalls]), ?_⟩
      intro a ha
      exact hs.calls a (by simp [hcalls, ha])
    | halt _ => exact ⟨hs.ip, hs.calls⟩
    | leave _ _ _ => exact ⟨hs.ip, hs.calls⟩
    | fault _ => exact ⟨hs.ip, hs.calls⟩
  · rw [hf] at hf'
    cases hf'

theorem aligned_step (hl : l.Coherent) (hc : l.Placed code) {s : State} (hs : Aligned l code s) :
    Aligned l code (step code s).state := by
  cases hf : fetch code s.ip with
  | error f =>
    rw [(step_of_fetch_error hf).2]
    exact hs
  | ok j =>
    obtain ⟨hip, hcalls⟩ := boundary_of_goes hl hc hs hf (goes_step hf)
    exact ⟨hip, hcalls⟩

theorem aligned_start (hc : l.Placed code) (input : Input) (output : Output) :
    Aligned l code (.start input output) := by
  refine ⟨?_, ?_⟩
  · have := boundary_address hc (Nat.zero_le l.instrs.length)
    rwa [Instr.address_zero] at this
  · intro a ha
    cases ha

theorem aligned_reaches (hl : l.Coherent) (hc : l.Placed code) {s t : State}
    (hs : Aligned l code s) (h : Reaches code s t) : Aligned l code t := by
  induction h with
  | refl => exact hs
  | step _ ih => exact aligned_step hl hc ih

/-- The faults that a step from an aligned state can meet. Leaving the code takes it to be at the
end, or at a taken jump there. -/
theorem fault_of_aligned (hl : l.Coherent) (hc : l.Placed code) {s : State}
    (hs : Aligned l code s) {f : Fault} (h : (step code s).outcome = .failed f) :
    f.OfInstr ∨
      f = .invalidInstructionPointer ∧ (step code s).state = s ∧
        (s.ip = code.size ∨ ∃ k d, fetch code s.ip = .ok (.jump k d) ∧
          k.taken s.store.data = true ∧ (s.ip : Int) + d.toInt = code.size) := by
  rcases fetch_boundary hc hs.ip with ⟨k, i, j, hi, ha, hf, hm⟩ | ⟨hend, hf⟩
  · have hgoes := goes_step hf
    rw [h] at hgoes
    generalize (step code s).state.ip = ip at hgoes
    generalize (step code s).state.calls = calls at hgoes
    cases hgoes with
    | fault hi => exact .inl hi
    | @leave kind d hj ht hnone =>
      subst hj
      obtain ⟨t, hd, hle, -⟩ := boundary_of_jump hl hc hm
      have := jumpTarget?_eq_none hnone
      have hsize : (s.ip : Int) + d.toInt = code.size := by omega
      exact .inr ⟨rfl, (step_of_leave hf ht hnone).2, .inr ⟨kind, d, hf, ht, hsize⟩⟩
  · obtain ⟨ho, hstate⟩ := step_of_fetch_error hf
    rw [ho] at h
    cases h
    exact .inr ⟨rfl, hstate, .inl hend⟩

end Listing

/-- Code of a source text is never left at other places than its instructions. Whatever is reached
from the start, `ip` and the return addresses are boundaries, and a run meets no unknown opcode and
no broken operand. It leaves the code only at the very end. -/
theorem run_assemble_aligned {source : String} {code : Code} (h : assemble source = .ok code) :
    ∃ l, Listing.ofText? source.toList = .ok l ∧ ∀ (input : Input) (output : Output),
      (∀ s, Reaches code (.start input output) s →
        l.Boundary code s.ip ∧ ∀ a ∈ s.calls, l.Boundary code a) ∧
      ∀ n f s, run code n (.start input output) = (.failed f, s) →
        f ≠ .unrecognizedCommand ∧ f ≠ .commandArgument ∧
          (f = .invalidInstructionPointer →
            s.ip = code.size ∨ ∃ k d, fetch code s.ip = .ok (.jump k d) ∧
              k.taken s.store.data = true ∧ (s.ip : Int) + d.toInt = code.size) := by
  obtain ⟨l, hof, he⟩ := listing_of_assemble h
  have hl := Listing.coherent_ofText? hof
  have hc := Listing.placed_of_emit he
  refine ⟨l, hof, ?_⟩
  intro input output
  have halign : ∀ s, Reaches code (.start input output) s → Aligned l code s :=
    fun s hs => aligned_reaches hl hc (aligned_start hc input output) hs
  refine ⟨fun s hs => ⟨(halign s hs).ip, (halign s hs).calls⟩, ?_⟩
  intro n f s hrun
  have hfail : (run code n (.start input output)).1 = .failed f := by rw [hrun]
  obtain ⟨t, ht, ho, hts⟩ := run_failed hfail
  rw [hrun] at hts
  rcases fault_of_aligned hl hc (halign t ht) ho with hf | ⟨rfl, hstate, hend⟩
  · cases hf <;> exact ⟨nofun, nofun, nofun⟩
  · rw [hstate] at hts
    subst hts
    exact ⟨nofun, nofun, fun _ => hend⟩

/-- A jump to the very end of the code fails where it stands, after one step. -/
theorem run_assemble_aligned_end :
    let code : Code := #[20, 5, 0, 0, 0]
    let s := State.start (.ofBytes [] none) .unlimited
    assemble "jmp end end:" = .ok code ∧ Reaches code s s ∧
      run code 1 s = (.failed .invalidInstructionPointer, s) ∧
      ∃ l, Listing.ofText? "jmp end end:".toList = .ok l ∧ l.Boundary code s.ip ∧
        (s.ip = code.size ∨ ∃ k d, fetch code s.ip = .ok (.jump k d) ∧
          k.taken s.store.data = true ∧ (s.ip : Int) + d.toInt = code.size) := by
  intro code s
  have h : assemble "jmp end end:" = .ok code := by decide +kernel
  have hfetch : fetch code s.ip = .ok (.jump .always 5) := by decide +kernel
  have hnone : jumpTarget? code s.ip 5 = none := by decide +kernel
  have hrun : run code 1 s = (.failed .invalidInstructionPointer, s) := by
    obtain ⟨ho, hs⟩ := step_of_leave hfetch rfl hnone
    rw [run_succ, ho, hs]
  obtain ⟨l, hl, hall⟩ := run_assemble_aligned h
  obtain ⟨hreach, hfail⟩ := hall (.ofBytes [] none) .unlimited
  exact ⟨h, .refl, hrun, l, hl, (hreach s .refl).1, (hfail 1 _ s hrun).2.2 rfl⟩

end StackMachine
