import StackMachine.Proofs.Assembly.Placement

/-!
# StackMachine.Proofs.Assembly.Disassembly

Reading a program back from its code.

* `sweep`: the instructions of code one behind the other, with their addresses. It ends well only
  at the very end of the code.
* `sweep_encodeAll`: sweeping over encoded instructions finds them all.
* `sweep_collect`: sweeping over the code of a listing finds what was written, each instruction
  where the sizes of the statements before it put it.
-/

namespace StackMachine

/-- The instructions from an address on, each with its own, if the last ends with the code. -/
def sweep (code : Code) (a : Nat) : Except Fault (List (Nat × Instr Offset)) :=
  if a = code.size then .ok []
  else
    match hf : fetch code a with
    | .error f => .error f
    | .ok i =>
      have := fetch_le hf
      have := i.size_pos
      match sweep code (a + i.size) with
      | .error f => .error f
      | .ok found => .ok ((a, i) :: found)
termination_by code.size - a

theorem sweep_size (code : Code) : sweep code code.size = .ok [] := by
  rw [sweep]
  simp

theorem sweep_of_fetch {code : Code} {a : Nat} {i : Instr Offset}
    {found : List (Nat × Instr Offset)} (hf : fetch code a = .ok i)
    (hs : sweep code (a + i.size) = .ok found) : sweep code a = .ok ((a, i) :: found) := by
  have hle := fetch_le hf
  have hpos := i.size_pos
  rw [sweep, if_neg (by omega)]
  split
  · rename_i f he
    rw [hf] at he
    cases he
  · rename_i j hj
    rw [hf] at hj
    cases hj
    simp [hs]

/-- Instructions with their addresses, the first one standing at `a`. -/
def Instr.located {J : Type} : Nat → List (Instr J) → List (Nat × Instr J)
  | _, [] => []
  | a, i :: is => (a, i) :: located (a + i.size) is

theorem Instr.length_located {J : Type} (a : Nat) (is : List (Instr J)) :
    (located a is).length = is.length := by
  induction is generalizing a with
  | nil => rfl
  | cons i is ih => rw [located, List.length_cons, List.length_cons, ih]

theorem Instr.getElem?_located {J : Type} {a k : Nat} {is : List (Instr J)} {i : Instr J}
    (h : is[k]? = some i) : (located a is)[k]? = some (a + address is k, i) := by
  induction is generalizing a k with
  | nil => simp at h
  | cons j is ih =>
    cases k with
    | zero =>
      simp only [List.getElem?_cons_zero, Option.some.injEq] at h
      subst h
      rfl
    | succ k =>
      rw [List.getElem?_cons_succ] at h
      rw [located, List.getElem?_cons_succ, address_cons, ih h, Nat.add_assoc]

/-- A sweep from the first of several instructions finds them all and nothing else. -/
theorem sweep_encodeAll (before : List UInt8) (js : List (Instr Offset)) :
    sweep (before ++ Instr.encodeAll js).toArray before.length =
      .ok (Instr.located before.length js) := by
  induction js generalizing before with
  | nil =>
    have := sweep_size before.toArray
    simpa [Instr.encodeAll, Instr.located] using this
  | cons j js ih =>
    have hcode : before ++ Instr.encodeAll (j :: js) =
        before ++ j.encode ++ Instr.encodeAll js := by
      simp [Instr.encodeAll]
    have hnext := ih (before ++ j.encode)
    rw [List.length_append, Instr.length_encode] at hnext
    rw [hcode]
    exact sweep_of_fetch (fetch_encode before (Instr.encodeAll js) j) hnext

/-- The sizes of the first statements add up to the address of the instruction after them. -/
theorem Statement.sum_size_take (ss : List Statement) (n : Nat) :
    ((ss.take n).map size).sum = Instr.address (instrs ss) (instrs (ss.take n)).length := by
  have happ : instrs ss = instrs (ss.take n) ++ instrs (ss.drop n) := by
    rw [← instrs_append, List.take_append_drop]
  rw [sum_size, happ, Instr.address_append _ (Nat.le_refl _)]

theorem Statement.getElem?_instrs {ss : List Statement} {n : Nat} {i : Instr Label}
    (h : ss[n]? = some (.instr i)) : (instrs ss)[(instrs (ss.take n)).length]? = some i := by
  induction ss generalizing n with
  | nil => simp at h
  | cons s ss ih =>
    cases n with
    | zero =>
      simp only [List.getElem?_cons_zero, Option.some.injEq] at h
      subst h
      rfl
    | succ n =>
      rw [List.getElem?_cons_succ] at h
      have := ih h
      cases s with
      | instr j => simpa using this
      | label d => simpa using this

/-- What is swept from the code of a listing is what was written, in order. -/
theorem sweep_collect {ss : List Statement} {code : Code}
    (h : (Listing.collect ss).emit = .ok code) :
    code.size = (Listing.collect ss).size ∧
      ∃ found, sweep code 0 = .ok found ∧ found.length = (Listing.collect ss).instrs.length ∧
        ∀ (n : Nat) (i : Instr Label), (Listing.collect ss).statements[n]? = some (.instr i) →
          let before := (Listing.collect ss).statements.toList.take n
          let a := (before.map Statement.size).sum
          ∃ j, found[(Statement.instrs before).length]? = some (a, j) ∧
            i.Means (Listing.collect ss).symbols a j := by
  obtain ⟨js, hjs, hcode⟩ := Listing.linked_of_emit h
  have hsweep := sweep_encodeAll [] js
  rw [List.nil_append, ← hcode] at hsweep
  refine ⟨?_, Instr.located 0 js, hsweep, ?_, ?_⟩
  · rw [(Listing.placed_of_emit h).size_eq, (Listing.coherent_collect ss).size_eq]
  · rw [Instr.length_located, hjs.length_eq]
  · intro n i hn before a
    rw [Array.getElem?_toList.symm] at hn
    have hi := Statement.getElem?_instrs hn
    obtain ⟨j, hj, hr⟩ := hjs.getElem? hi
    have ha : a = Instr.address (Listing.collect ss).instrs (Statement.instrs before).length :=
      Statement.sum_size_take _ n
    refine ⟨j, ?_, ?_⟩
    · rw [Instr.getElem?_located hj, Nat.zero_add, hjs.address_eq, ha]
    · rw [Nat.zero_add] at hr
      rw [ha]
      exact Instr.means_of_resolve hr

/-- A call forward and a jump back. The second definition of `a` is refused, and leaves no trace. -/
theorem sweep_collect_jumps :
    let a : Label := ⟨"a", ⟨0, 1⟩⟩
    let b : Label := ⟨"b", ⟨7, 1⟩⟩
    let ss : List Statement := [.label a, .instr (.jump .call b), .label a,
      .instr (.fixed .pop (-2147483648)), .label b, .instr (.jump .always a)]
    let code : Code := #[27, 10, 0, 0, 0, 18, 0, 0, 0, 128, 20, 246, 255, 255, 255]
    (Listing.collect ss).emit = .ok code ∧
      (Listing.collect ss).statements[4]? = some (.instr (.jump .always a)) ∧
      code.size = (Listing.collect ss).size ∧
      ∃ found, sweep code 0 = .ok found ∧ found.length = (Listing.collect ss).instrs.length ∧
        ∃ j, found[2]? = some (10, j) ∧
          (Instr.jump .always a).Means (Listing.collect ss).symbols 10 j := by
  intro a b ss code
  have hemit : (Listing.collect ss).emit = .ok code := by decide +kernel
  have hstmt : (Listing.collect ss).statements[4]? = some (.instr (.jump .always a)) := by
    decide +kernel
  obtain ⟨hsize, found, hsweep, hlen, hfound⟩ := sweep_collect hemit
  exact ⟨hemit, hstmt, hsize, found, hsweep, hlen, hfound 4 _ hstmt⟩

end StackMachine
