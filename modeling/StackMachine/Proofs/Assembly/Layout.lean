import Mathlib.Algebra.Order.Ring.Nat
import StackMachine.Assembly.Listing

/-!
# StackMachine.Proofs.Assembly.Layout

Where the parts of a program stand, read off its statements alone.

* `Instr.address`: the address of the `k`-th instruction, a prefix sum of sizes.
* `Statement.index?`: what a label stands for, the number of instructions before its definition.
* `Listing.Coherent`: the size and the symbols of a listing are those of its statements. Adding a
  statement keeps it, so it holds of what a text is collected to and of what any sequence of
  additions leaves, refused ones among them (`Listing.collect`).
-/

namespace StackMachine

namespace Instr

variable {J : Type}

/-- The address of the `k`-th instruction. Past the last one it is the size of the whole. -/
def address (is : List (Instr J)) (k : Nat) : Nat := ((is.take k).map size).sum

@[simp] theorem address_zero (is : List (Instr J)) : address is 0 = 0 := by simp [address]

@[simp] theorem address_nil (k : Nat) : address ([] : List (Instr J)) k = 0 := by simp [address]

@[simp] theorem address_cons (i : Instr J) (is : List (Instr J)) (k : Nat) :
    address (i :: is) (k + 1) = i.size + address is k := by
  simp [address, List.take_succ_cons]

theorem address_succ {is : List (Instr J)} {k : Nat} {i : Instr J} (h : is[k]? = some i) :
    address is (k + 1) = address is k + i.size := by
  induction is generalizing k with
  | nil => simp at h
  | cons j js ih =>
    cases k with
    | zero =>
      simp only [List.getElem?_cons_zero, Option.some.injEq] at h
      subst h
      simp
    | succ k =>
      rw [List.getElem?_cons_succ] at h
      rw [address_cons, address_cons, ih h, Nat.add_assoc]

theorem address_of_length_le {is : List (Instr J)} {k : Nat} (h : is.length ≤ k) :
    address is k = address is is.length := by
  simp [address, List.take_of_length_le h]

theorem address_append {is : List (Instr J)} {k : Nat} (js : List (Instr J))
    (h : k ≤ is.length) : address (is ++ js) k = address is k := by
  rw [address, address, List.take_append_of_le_length h]

theorem address_mono {is : List (Instr J)} {k m : Nat} (h : k ≤ m) :
    address is k ≤ address is m := by
  induction is generalizing k m with
  | nil => simp
  | cons i is ih =>
    cases k with
    | zero => simp
    | succ k =>
      obtain ⟨m, rfl⟩ : ∃ m', m = m' + 1 := ⟨m - 1, by omega⟩
      rw [address_cons, address_cons]
      have := ih (k := k) (m := m) (by omega)
      omega

theorem address_lt {is : List (Instr J)} {k m : Nat} (h : k < m) (hk : k < is.length) :
    address is k < address is m := by
  have hs := address_succ (List.getElem?_eq_getElem hk)
  have hp := size_pos is[k]
  have hm : address is (k + 1) ≤ address is m := address_mono h
  omega

theorem address_lt_iff {is : List (Instr J)} {k : Nat} :
    address is k < address is is.length ↔ k < is.length := by
  constructor
  · intro h
    by_cases hk : k < is.length
    · exact hk
    · rw [address_of_length_le (by omega)] at h
      omega
  · intro h
    exact address_lt h h

end Instr

namespace Statement

def instr? : Statement → Option (Instr Label)
  | instr i => some i
  | label _ => none

def instrs (ss : List Statement) : List (Instr Label) := ss.filterMap instr?

/-- The number of instructions before the first definition of a name. -/
def index? (name : String) : List Statement → Option Nat
  | [] => none
  | label d :: ss => if d.name = name then some 0 else index? name ss
  | instr _ :: ss => (index? name ss).map (· + 1)

@[simp] theorem instrs_nil : instrs [] = [] := rfl

@[simp] theorem instrs_instr (i : Instr Label) (ss : List Statement) :
    instrs (instr i :: ss) = i :: instrs ss := rfl

@[simp] theorem instrs_label (d : Label) (ss : List Statement) :
    instrs (label d :: ss) = instrs ss := rfl

theorem instrs_append (ss ts : List Statement) : instrs (ss ++ ts) = instrs ss ++ instrs ts :=
  List.filterMap_append

theorem sum_size (ss : List Statement) :
    (ss.map size).sum = Instr.address (instrs ss) (instrs ss).length := by
  induction ss with
  | nil => rfl
  | cons s ss ih =>
    cases s with
    | instr i => simp [size, ih]
    | label d => simp [ih]

theorem index?_le {name : String} {ss : List Statement} {k : Nat} (h : index? name ss = some k) :
    k ≤ (instrs ss).length := by
  induction ss generalizing k with
  | nil => simp [index?] at h
  | cons s ss ih =>
    cases s with
    | instr i =>
      simp only [index?] at h
      obtain ⟨m, hm, rfl⟩ := Option.map_eq_some_iff.mp h
      have := ih hm
      simp only [instrs_instr, List.length_cons]
      omega
    | label d =>
      simp only [index?] at h
      split at h
      · cases h
        exact Nat.zero_le _
      · exact ih h

theorem index?_append (name : String) (ss ts : List Statement) :
    index? name (ss ++ ts) =
      (index? name ss).or ((index? name ts).map (· + (instrs ss).length)) := by
  induction ss with
  | nil => simp [index?]
  | cons s ss ih =>
    cases s with
    | instr i =>
      simp only [List.cons_append, index?, ih, instrs_instr, List.length_cons]
      cases index? name ss with
      | some k => rfl
      | none => cases index? name ts <;> simp [Nat.add_assoc]
    | label d =>
      simp only [List.cons_append, index?, ih, instrs_label]
      split
      · rfl
      · rfl

end Statement

namespace Listing

def instrs (l : Listing) : List (Instr Label) := Statement.instrs l.statements.toList

def extent (l : Listing) : Nat := Instr.address l.instrs l.instrs.length

/-- The size and the symbols of a listing are those that its statements give. -/
structure Coherent (l : Listing) : Prop where
  size_eq : l.size = l.extent
  get?_eq : ∀ name, l.symbols.get? name =
    (Statement.index? name l.statements.toList).map (Instr.address l.instrs)

theorem coherent_empty : empty.Coherent := ⟨rfl, fun _ => rfl⟩

theorem Coherent.add {l m : Listing} {s : Statement} (hl : l.Coherent) (h : l.add s = .ok m) :
    m.Coherent := by
  cases s with
  | instr i =>
    rw [add_instr] at h
    cases h
    have his : Statement.instrs (l.statements.push (.instr i)).toList = l.instrs ++ [i] := by
      rw [Array.toList_push, Statement.instrs_append]
      rfl
    constructor
    · show l.size + i.size = Instr.address (Statement.instrs _) (Statement.instrs _).length
      have hi : (l.instrs ++ [i])[l.instrs.length]? = some i := by simp
      rw [his, List.length_append, List.length_singleton, Instr.address_succ hi,
        Instr.address_append [i] (Nat.le_refl _), hl.size_eq, extent]
    · intro name
      show l.symbols.get? name = (Statement.index? name _).map (Instr.address (Statement.instrs _))
      rw [hl.get?_eq, his, Array.toList_push, Statement.index?_append]
      cases hk : Statement.index? name l.statements.toList with
      | none => rfl
      | some k =>
        have hle : k ≤ l.instrs.length := Statement.index?_le hk
        simp [Instr.address_append [i] hle]
  | label d =>
    have his : Statement.instrs (l.statements.push (.label d)).toList = l.instrs := by
      rw [Array.toList_push, Statement.instrs_append]
      simp [instrs]
    simp only [Listing.add, define] at h
    cases ht : l.symbols.insert d.name l.size with
    | error a =>
      rw [ht] at h
      cases h
    | ok t =>
      rw [ht] at h
      cases h
      constructor
      · show l.size + 0 = Instr.address (Statement.instrs _) (Statement.instrs _).length
        rw [his, hl.size_eq, extent, Nat.add_zero]
      · intro name
        show t.get? name = (Statement.index? name _).map (Instr.address (Statement.instrs _))
        rw [Symbols.get?_insert ht, his, Array.toList_push, Statement.index?_append]
        by_cases hn : name = d.name
        · -- The table had no such name, so neither had the statements.
          have hfree : l.symbols.get? d.name = none := by
            cases hg : l.symbols.get? d.name with
            | none => rfl
            | some a =>
              rw [Symbols.insert_eq_error_iff.mpr hg] at ht
              cases ht
          rw [hl.get?_eq, Option.map_eq_none_iff] at hfree
          subst hn
          rw [if_pos rfl, hfree, hl.size_eq]
          simp [Statement.index?, extent, instrs]
        · rw [if_neg hn, hl.get?_eq]
          have hd : ¬ d.name = name := fun e => hn e.symm
          simp [Statement.index?, hd]

theorem Coherent.addAll {l m : Listing} {as : List (Except AssemblyError Statement)}
    (hl : l.Coherent) (h : l.addAll as = .ok m) : m.Coherent := by
  induction as generalizing l with
  | nil =>
    cases h
    exact hl
  | cons a as ih =>
    cases a with
    | error e => cases h
    | ok s =>
      simp only [Listing.addAll] at h
      cases hs : l.add s with
      | error e =>
        rw [hs] at h
        cases h
      | ok l' =>
        rw [hs] at h
        exact ih (hl.add hs) h

theorem coherent_ofText? {cs : List Char} {l : Listing} (h : ofText? cs = .ok l) : l.Coherent :=
  coherent_empty.addAll h

/-- Adds a statement; one that is refused leaves the listing as it is. -/
def offer (l : Listing) (s : Statement) : Listing :=
  match l.add s with
  | .ok m => m
  | .error _ => l

/-- The listing after one statement after another was offered. -/
def collect (ss : List Statement) : Listing := ss.foldl offer empty

theorem Coherent.offer {l : Listing} (hl : l.Coherent) (s : Statement) : (l.offer s).Coherent := by
  unfold Listing.offer
  split
  · rename_i h
    exact hl.add h
  · exact hl

theorem coherent_collect (ss : List Statement) : (collect ss).Coherent := by
  have key : ∀ (l : Listing), l.Coherent → (ss.foldl Listing.offer l).Coherent := by
    induction ss with
    | nil => intro l hl; exact hl
    | cons s ss ih => intro l hl; exact ih _ (hl.offer s)
  exact key _ coherent_empty

end Listing
end StackMachine
