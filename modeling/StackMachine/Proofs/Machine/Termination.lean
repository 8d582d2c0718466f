import Mathlib.Data.Finset.Card
import Mathlib.Data.Finset.Range
import StackMachine.Proofs.Assembly.Collection
import StackMachine.Proofs.Machine.Boundaries

/-!
# StackMachine.Proofs.Machine.Termination

A program whose jumps all lead forward ends.

* `Statement.Forward`: every jump names a label that is defined behind it.
* `Listing.ahead`: the number of instructions that start at an address or behind it.
* `turns`: the most steps that control can make with so many instructions ahead, if it never has
  more of them ahead than where it was, but for returns to places that are waiting for it.
* `State.budget`: the turns of `ip` and of all return addresses. A step that goes on uses some of it
  up (`budget_step`), and nothing is left after as many steps (`run_ends`).
* `run_forward_ends`: for the code of a source text, from the start.

A return leads back, so the place of control alone is no measure. But the place that it leads to was
in the budget as long as the call was open, and a call puts two places ahead of its own there.
-/

namespace StackMachine

namespace Statement

/-- Every jump names a label that is defined behind it. -/
def Forward (ss : List Statement) : Prop :=
  ∀ (m : Nat) (k : Jump) (l : Label), ss[m]? = some (.instr (.jump k l)) →
    ∃ n d, m < n ∧ ss[n]? = some (.label d) ∧ d.name = l.name

theorem exists_of_instrs {ss : List Statement} {k : Nat} {i : Instr Label}
    (h : (instrs ss)[k]? = some i) :
    ∃ m, ss[m]? = some (.instr i) ∧ (instrs (ss.take m)).length = k := by
  induction ss generalizing k with
  | nil => simp at h
  | cons s ss ih =>
    cases s with
    | label d =>
      obtain ⟨m, hm, hk⟩ := ih h
      exact ⟨m + 1, hm, hk⟩
    | instr j =>
      cases k with
      | zero =>
        rw [instrs_instr, List.getElem?_cons_zero, Option.some.injEq] at h
        exact ⟨0, by rw [h]; rfl, rfl⟩
      | succ k =>
        rw [instrs_instr, List.getElem?_cons_succ] at h
        obtain ⟨m, hm, hk⟩ := ih h
        exact ⟨m + 1, hm, by rw [List.take_succ_cons, instrs_instr, List.length_cons, hk]⟩

theorem length_instrs_take_lt {ss : List Statement} {m n : Nat} {i : Instr Label}
    (hm : ss[m]? = some (.instr i)) (hmn : m < n) :
    (instrs (ss.take m)).length < (instrs (ss.take n)).length := by
  obtain ⟨j, rfl⟩ : ∃ j, n = m + 1 + j := ⟨n - (m + 1), by omega⟩
  have htake : ss.take (m + 1 + j) = ss.take m ++ [.instr i] ++ (ss.drop (m + 1)).take j := by
    rw [List.take_add, List.take_add_one, hm]
    rfl
  rw [htake, instrs_append, instrs_append, List.length_append, List.length_append]
  simp only [instrs_instr, instrs_nil, List.length_singleton]
  omega

end Statement

namespace Listing

variable {l : Listing}

/-- The label of a jump stands for an address behind it. -/
theorem address_lt_target {ss : List Statement} (hl : l.Holds ss) (hforward : Statement.Forward ss)
    {k target : Nat} {kind : Jump} {label : Label}
    (hk : l.instrs[k]? = some (.jump kind label))
    (ht : l.symbols.get? label.name = some target) : Instr.address l.instrs k < target := by
  rw [instrs, hl.statements_eq] at hk ⊢
  obtain ⟨m, hm, hmk⟩ := Statement.exists_of_instrs hk
  obtain ⟨n, d, hmn, hd, hname⟩ := hforward m kind label hm
  rw [hl.get?_eq, ← hname, Statement.index?_of_definition hl.nodup hd] at ht
  obtain rfl := Option.some.inj ht
  refine Instr.address_lt ?_ (List.getElem?_eq_some_iff.mp hk).1
  rw [← hmk]
  exact Statement.length_instrs_take_lt hm hmn

/-- The number of instructions that start at an address or behind it. -/
def ahead (l : Listing) (a : Nat) : Nat :=
  ((Finset.range l.instrs.length).filter fun k => a ≤ Instr.address l.instrs k).card

theorem ahead_zero (l : Listing) : l.ahead 0 = l.instrs.length := by
  simp [ahead]

/-- Behind an instruction there is one less. -/
theorem ahead_lt {k a : Nat} (hk : k < l.instrs.length) (ha : Instr.address l.instrs k < a) :
    l.ahead a < l.ahead (Instr.address l.instrs k) := by
  refine Finset.card_lt_card (Finset.ssubset_iff_of_subset ?_ |>.mpr ⟨k, ?_, ?_⟩)
  · intro m hm
    rw [Finset.mem_filter] at hm ⊢
    exact ⟨hm.1, by omega⟩
  · rw [Finset.mem_filter, Finset.mem_range]
    exact ⟨hk, Nat.le_refl _⟩
  · rw [Finset.mem_filter]
    omega

end Listing

/-- With no instruction ahead there is one step, which fails. -/
def turns (n : Nat) : Nat := 2 ^ (n + 1) - 1

theorem turns_pos (n : Nat) : 0 < turns n := by
  have : 1 ≤ 2 ^ n := Nat.one_le_two_pow
  rw [turns, Nat.pow_succ]
  omega

theorem turns_add_lt {j m n : Nat} (hj : j < n) (hm : m < n) : turns j + turns m < turns n := by
  have hj' : 2 ^ (j + 1) ≤ 2 ^ n := Nat.pow_le_pow_right (by omega) hj
  have hm' : 2 ^ (m + 1) ≤ 2 ^ n := Nat.pow_le_pow_right (by omega) hm
  have hpos : 1 ≤ 2 ^ n := Nat.one_le_two_pow
  have hj₁ : 1 ≤ 2 ^ (j + 1) := Nat.one_le_two_pow
  have hm₁ : 1 ≤ 2 ^ (m + 1) := Nat.one_le_two_pow
  rw [turns, turns, turns, Nat.pow_succ 2 n]
  omega

theorem turns_lt {m n : Nat} (h : m < n) : turns m < turns n := by
  have := turns_add_lt h h
  have := turns_pos m
  omega

/-- The turns of the places where control is and where it will return to. -/
def State.budget (l : Listing) (s : State) : Nat :=
  ((s.ip :: s.calls).map fun a => turns (l.ahead a)).sum

section Budget

variable {l : Listing} {code : Code} {s : State}

theorem budget_eq (l : Listing) (s : State) :
    s.budget l = turns (l.ahead s.ip) + (s.calls.map fun a => turns (l.ahead a)).sum := by
  rw [State.budget, List.map_cons, List.sum_cons]

theorem budget_pos (l : Listing) (s : State) : 0 < s.budget l := by
  have := turns_pos (l.ahead s.ip)
  rw [budget_eq]
  omega

/-- A step that goes on uses up some of the budget. -/
theorem budget_step {ss : List Statement} (hl : l.Holds ss) (hforward : Statement.Forward ss)
    (hc : l.Placed code) (hs : Aligned l code s) (hruns : (step code s).outcome = .running) :
    (step code s).state.budget l < s.budget l := by
  rcases fetch_boundary hc hs.ip with ⟨k, i, j, hi, hk, hf, hm⟩ | ⟨-, hf⟩
  · have hahead : ∀ {a : Nat}, s.ip < a → l.ahead a < l.ahead s.ip := by
      intro a ha
      rw [hk] at ha ⊢
      exact Listing.ahead_lt (List.getElem?_eq_some_iff.mp hi).1 ha
    have hfollowing : l.ahead (s.ip + j.size) < l.ahead s.ip :=
      hahead (Nat.lt_add_of_pos_right j.size_pos)
    have htarget : ∀ {kind : Jump} {d : Offset} {t : Nat}, j = .jump kind d →
        jumpTarget? code s.ip d = some t → l.ahead t < l.ahead s.ip := by
      intro kind d t hj ht
      subst hj
      cases hm with
      | @jump _ label _ target hget hd =>
        have hlt := Listing.address_lt_target hl hforward hi hget
        have heq := jumpTarget?_eq_some ht
        exact hahead (by omega)
    have hgoes := goes_step hf
    rw [hruns] at hgoes
    rw [budget_eq, budget_eq]
    generalize (step code s).state.ip = ip at hgoes ⊢
    generalize (step code s).state.calls = calls at hgoes ⊢
    cases hgoes with
    | next =>
      have := turns_lt hfollowing
      omega
    | jump hj _ _ ht =>
      have := turns_lt (htarget hj ht)
      omega
    | call hj ht =>
      have := turns_add_lt (htarget hj ht) hfollowing
      rw [List.map_cons, List.sum_cons]
      omega
    | ret _ hcalls =>
      have := turns_pos (l.ahead s.ip)
      rw [hcalls, List.map_cons, List.sum_cons]
      omega
  · rw [(step_of_fetch_error hf).1] at hruns
    cases hruns

/-- A run has ended when its budget is used up. -/
theorem run_ends {ss : List Statement} (hl : l.Holds ss) (hforward : Statement.Forward ss)
    (hc : l.Placed code) {n : Nat} (hs : Aligned l code s) (hn : s.budget l ≤ n) :
    (run code n s).1 ≠ .running := by
  induction n generalizing s with
  | zero =>
    have := budget_pos l s
    omega
  | succ n ih =>
    by_cases hruns : (step code s).outcome = .running
    · have hless := budget_step hl hforward hc hs hruns
      rw [run_of_running hruns]
      exact ih (aligned_step hl.coherent hc hs) (by omega)
    · rw [run_of_ended hruns]
      exact hruns

theorem budget_start (l : Listing) (input : Input) (output : Output) :
    (State.start input output).budget l = turns l.instrs.length := by
  rw [budget_eq]
  show turns (l.ahead 0) + 0 = _
  rw [l.ahead_zero, Nat.add_zero]

end Budget

/-- A program in which every jump and every call names a label that is defined behind it ends, on any
channels, although a return leads back and a subroutine may be called many times. With `n`
instructions it does so in less than `2 ^ (n + 1)` steps. -/
theorem run_forward_ends {source : String} {code : Code} {l : Listing}
    (h : assemble source = .ok code) (hl : Listing.ofText? source.toList = .ok l)
    (hforward : Statement.Forward l.statements.toList) (input : Input) (output : Output) :
    ∃ n < 2 ^ (l.instrs.length + 1),
      (run code n (.start input output)).1 = .halted ∨
        ∃ f, (run code n (.start input output)).1 = .failed f := by
  obtain ⟨l', hl', he⟩ := listing_of_assemble h
  rw [hl] at hl'
  cases hl'
  obtain ⟨ss, -, hholds⟩ := Listing.reads_of_ofText? hl
  rw [hholds.statements_eq] at hforward
  have hc := Listing.placed_of_emit he
  have hended := run_ends hholds hforward hc (aligned_start hc input output)
    (Nat.le_of_eq (budget_start l input output))
  have hpos : 1 ≤ 2 ^ (l.instrs.length + 1) := Nat.one_le_two_pow
  refine ⟨turns l.instrs.length, by rw [turns]; omega, ?_⟩
  generalize (run code (turns l.instrs.length) (.start input output)).1 = o at hended ⊢
  cases o with
  | running => exact absurd rfl hended
  | halted => exact .inl rfl
  | failed f => exact .inr ⟨f, rfl⟩

/-- A subroutine that is called twice, and calls another one each time. -/
theorem run_forward_ends_twice :
    let source := "call a call a halt a: call b ret b: ret"
    ∃ code l, assemble source = .ok code ∧ Listing.ofText? source.toList = .ok l ∧
      Statement.Forward l.statements.toList ∧
      ∃ n < 2 ^ (l.instrs.length + 1),
        (run code n (.start (.ofBytes [] none) .unlimited)).1 = .halted ∨
          ∃ f, (run code n (.start (.ofBytes [] none) .unlimited)).1 = .failed f := by
  intro source
  have h : assemble source =
      .ok #[27, 11, 0, 0, 0, 27, 6, 0, 0, 0, 11, 27, 6, 0, 0, 0, 10, 10] := by decide +kernel
  obtain ⟨l, hl, -⟩ := listing_of_assemble h
  have hstatements : (Listing.ofText? source.toList).map (fun l => l.statements.toList) =
      .ok [.instr (.jump .call ⟨"a", ⟨5, 1⟩⟩), .instr (.jump .call ⟨"a", ⟨12, 1⟩⟩),
        .instr (.plain .halt), .label ⟨"a", ⟨19, 1⟩⟩, .instr (.jump .call ⟨"b", ⟨27, 1⟩⟩),
        .instr (.plain .ret), .label ⟨"b", ⟨33, 1⟩⟩, .instr (.plain .ret)] := by decide +kernel
  have hforward : Statement.Forward l.statements.toList := by
    rw [hl] at hstatements
    rw [show l.statements.toList = _ from Except.ok.inj hstatements]
    intro m k label hm
    rcases m with _ | _ | _ | _ | _ | _ | _ | _ | m <;> cases hm
    · exact ⟨3, ⟨"a", ⟨19, 1⟩⟩, by decide, rfl, rfl⟩
    · exact ⟨3, ⟨"a", ⟨19, 1⟩⟩, by decide, rfl, rfl⟩
    · exact ⟨6, ⟨"b", ⟨33, 1⟩⟩, by decide, rfl, rfl⟩
  exact ⟨_, l, h, hl, hforward, run_forward_ends h hl hforward (.ofBytes [] none) .unlimited⟩

end StackMachine
