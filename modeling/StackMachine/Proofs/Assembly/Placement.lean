import StackMachine.Assembly.Assembler
import StackMachine.Proofs.Assembly.Layout
import StackMachine.Proofs.Machine.Fetch

/-!
# StackMachine.Proofs.Assembly.Placement

Emitted code holds every instruction at its address.

* `Linked`: encoded instructions that stand for written ones, the first of them at an address.
* `emitAll_linked`: emission appends the bytes of linked instructions.
* `Linked.fetch`: the processor finds each of them at its address.
* `Instr.Means`: an encoded instruction says what a written one does.
-/

namespace StackMachine

/-- The instructions of a program with their labels resolved, the first one standing at `a`. -/
inductive Linked (symbols : Symbols) : Nat → List (Instr Label) → List (Instr Offset) → Prop where
  | nil {a : Nat} : Linked symbols a [] []
  | cons {a : Nat} {i : Instr Label} {j : Instr Offset} {is : List (Instr Label)}
      {js : List (Instr Offset)} : i.resolve a symbols = .ok j →
      Linked symbols (a + i.size) is js → Linked symbols a (i :: is) (j :: js)

namespace Linked

variable {symbols : Symbols} {a : Nat} {is : List (Instr Label)} {js : List (Instr Offset)}

theorem length_eq (h : Linked symbols a is js) : js.length = is.length := by
  induction h with
  | nil => rfl
  | cons _ _ ih => rw [List.length_cons, List.length_cons, ih]

theorem address_eq (h : Linked symbols a is js) (k : Nat) :
    Instr.address js k = Instr.address is k := by
  induction h generalizing k with
  | nil => rw [Instr.address_nil, Instr.address_nil]
  | cons hr _ ih =>
    cases k with
    | zero => rw [Instr.address_zero, Instr.address_zero]
    | succ k => rw [Instr.address_cons, Instr.address_cons, Instr.size_resolve hr, ih]

theorem getElem? (h : Linked symbols a is js) {k : Nat} {i : Instr Label} (hi : is[k]? = some i) :
    ∃ j, js[k]? = some j ∧ i.resolve (a + Instr.address is k) symbols = .ok j := by
  induction h generalizing k with
  | nil => simp at hi
  | @cons a i₀ j₀ is js hr _ ih =>
    cases k with
    | zero =>
      simp only [List.getElem?_cons_zero, Option.some.injEq] at hi
      subst hi
      exact ⟨j₀, rfl, by simpa using hr⟩
    | succ k =>
      rw [List.getElem?_cons_succ] at hi
      obtain ⟨j, hj, hres⟩ := ih hi
      refine ⟨j, by simpa using hj, ?_⟩
      rw [Instr.address_cons, ← Nat.add_assoc]
      exact hres

end Linked

def Instr.encodeAll (js : List (Instr Offset)) : List UInt8 := js.flatMap Instr.encode

theorem Instr.length_encodeAll (js : List (Instr Offset)) :
    (encodeAll js).length = address js js.length := by
  induction js with
  | nil => rfl
  | cons j js ih =>
    rw [encodeAll, List.flatMap_cons, List.length_append, List.length_cons, address_cons,
      length_encode]
    rw [encodeAll] at ih
    rw [ih]

/-- Each instruction is fetched at its address among the bytes of all. -/
theorem Instr.fetch_encodeAll {js : List (Instr Offset)} {k : Nat} {j : Instr Offset}
    (h : js[k]? = some j) : fetch (encodeAll js).toArray (address js k) = .ok j := by
  obtain ⟨hk, hj⟩ := List.getElem?_eq_some_iff.mp h
  have hsplit : encodeAll js =
      encodeAll (js.take k) ++ j.encode ++ encodeAll (js.drop (k + 1)) := by
    have hjs : js = js.take k ++ j :: js.drop (k + 1) := by
      rw [← hj, List.getElem_cons_drop, List.take_append_drop]
    conv => lhs; rw [hjs]
    simp [encodeAll]
  have hlen : (encodeAll (js.take k)).length = address js k := by
    rw [length_encodeAll, List.length_take, Nat.min_eq_left (Nat.le_of_lt hk), address, address,
      List.take_take, Nat.min_self]
  rw [hsplit, ← hlen]
  exact fetch_encode _ _ _

namespace Statement

/-- Emission appends the bytes of the linked instructions. -/
theorem emitAll_linked {symbols : Symbols} {ss : List Statement} {out code : Code}
    (h : emitAll symbols ss out = .ok code) :
    ∃ js, Linked symbols out.size (instrs ss) js ∧
      code = out ++ (Instr.encodeAll js).toArray := by
  induction ss generalizing out with
  | nil =>
    cases h
    exact ⟨[], .nil, by simp [Instr.encodeAll]⟩
  | cons s ss ih =>
    cases s with
    | label d =>
      simp only [emitAll, emit, encode] at h
      obtain ⟨js, hjs, hcode⟩ := ih h
      exact ⟨js, by simpa using hjs, by simpa using hcode⟩
    | instr i =>
      simp only [emitAll, emit, encode] at h
      cases hr : i.resolve out.size symbols with
      | error e =>
        rw [hr] at h
        cases h
      | ok j =>
        rw [hr] at h
        obtain ⟨js, hjs, hcode⟩ := ih h
        have hsize : (out ++ j.encode.toArray).size = out.size + i.size := by
          simp [Instr.size_resolve hr]
        refine ⟨j :: js, .cons hr ?_, ?_⟩
        · rw [← hsize]
          exact hjs
        · rw [hcode]
          simp [Instr.encodeAll, Array.append_assoc]

end Statement

/-- An encoded instruction at `a` says what a written one does. They are the same but for a jump,
whose distance leads from `a` to the address of the label. -/
inductive Instr.Means (symbols : Symbols) (a : Nat) : Instr Label → Instr Offset → Prop where
  | plain (op : Plain) : Means symbols a (.plain op) (.plain op)
  | imm (w : Word) : Means symbols a (.imm w) (.imm w)
  | reg (m : Move) (r : Reg) : Means symbols a (.reg m r) (.reg m r)
  | held (m : Move) (r : Reg) : Means symbols a (.held m r) (.held m r)
  | fixed (m : Move) (x : Int32) : Means symbols a (.fixed m x) (.fixed m x)
  | jump {k : Jump} {l : Label} {d : Offset} {target : Nat} :
      symbols.get? l.name = some target → (a : Int) + d.toInt = target →
      Means symbols a (.jump k l) (.jump k d)

theorem Instr.Means.size_eq {a : Nat} {symbols : Symbols} {i : Instr Label} {j : Instr Offset}
    (h : i.Means symbols a j) : j.size = i.size := by
  cases h <;> rfl

theorem Instr.means_of_resolve {a : Nat} {symbols : Symbols} {i : Instr Label} {j : Instr Offset}
    (h : i.resolve a symbols = .ok j) : i.Means symbols a j := by
  cases i with
  | jump k l =>
    simp only [resolve] at h
    cases hd : l.offset a symbols with
    | error e =>
      rw [hd] at h
      cases h
    | ok d =>
      rw [hd] at h
      cases h
      obtain ⟨target, ht, hsum⟩ := Label.offset_eq_ok_iff.mp hd
      exact .jump ht hsum
  | plain op => cases h; exact .plain op
  | imm w => cases h; exact .imm w
  | reg m r => cases h; exact .reg m r
  | held m r => cases h; exact .held m r
  | fixed m x => cases h; exact .fixed m x

namespace Listing

theorem linked_of_emit {l : Listing} {code : Code} (h : l.emit = .ok code) :
    ∃ js, Linked l.symbols 0 l.instrs js ∧ code = (Instr.encodeAll js).toArray := by
  obtain ⟨js, hjs, hcode⟩ := Statement.emitAll_linked h
  exact ⟨js, hjs, by simpa using hcode⟩

/-- The code holds the instructions of the listing, each at its address, and nothing else. -/
structure Placed (l : Listing) (code : Code) : Prop where
  size_eq : code.size = l.extent
  fetch : ∀ {k : Nat} {i : Instr Label}, l.instrs[k]? = some i →
    ∃ j, StackMachine.fetch code (Instr.address l.instrs k) = .ok j ∧
      i.Means l.symbols (Instr.address l.instrs k) j

theorem placed_of_emit {l : Listing} {code : Code} (h : l.emit = .ok code) : l.Placed code := by
  obtain ⟨js, hjs, rfl⟩ := linked_of_emit h
  constructor
  · rw [List.size_toArray, Instr.length_encodeAll, hjs.address_eq, hjs.length_eq, extent]
  · intro k i hi
    obtain ⟨j, hj, hr⟩ := hjs.getElem? hi
    rw [Nat.zero_add] at hr
    refine ⟨j, ?_, Instr.means_of_resolve hr⟩
    rw [← hjs.address_eq]
    exact Instr.fetch_encodeAll hj

end Listing

theorem listing_of_assemble {source : String} {code : Code} (h : assemble source = .ok code) :
    ∃ l, Listing.ofText? source.toList = .ok l ∧ l.emit = .ok code := by
  rw [assemble_eq] at h
  cases hl : Listing.ofText? source.toList with
  | error e =>
    rw [hl] at h
    cases h
  | ok l =>
    rw [hl] at h
    exact ⟨l, rfl, h⟩

end StackMachine
