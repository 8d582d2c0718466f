import StackMachine.Assembly.Error
import StackMachine.Assembly.Statement
import StackMachine.Assembly.Symbols
import StackMachine.Source.Statement

/-!
# StackMachine.Assembly.Listing

A program as it is collected: statements in order, the addresses of its labels, and its size.

* `Listing.add`: appends a statement; a label is defined as the address reached so far.
* `Listing.addAll`: appends what was read, up to the first error.
* `Listing.ofText?`: collects a source text.
-/

namespace StackMachine

/-- `size` is the address at which the next instruction will stand. -/
structure Listing where
  statements : Array Statement
  symbols : Symbols
  size : Nat

namespace Listing

def empty : Listing := ⟨#[], .empty, 0⟩

def define (l : Listing) : Statement → Except AssemblyError Symbols
  | .instr _ => .ok l.symbols
  | .label d =>
    match l.symbols.insert d.name l.size with
    | .ok symbols => .ok symbols
    | .error _ => .error ⟨.duplicateLabel d.name, d.span⟩

def add (l : Listing) (s : Statement) : Except AssemblyError Listing :=
  match l.define s with
  | .error e => .error e
  | .ok symbols => .ok ⟨l.statements.push s, symbols, l.size + s.size⟩

/-- Appends statements up to the first that could not be read or added. -/
def addAll (l : Listing) : List (Except AssemblyError Statement) → Except AssemblyError Listing
  | [] => .ok l
  | .error e :: _ => .error e
  | .ok s :: rest =>
    match l.add s with
    | .error e => .error e
    | .ok l => l.addAll rest

def ofText? (cs : List Char) : Except AssemblyError Listing := empty.addAll (Statement.ofText cs)

theorem add_instr (l : Listing) (i : Instr Label) :
    l.add (.instr i) = .ok ⟨l.statements.push (.instr i), l.symbols, l.size + i.size⟩ := rfl

theorem of_add {l m : Listing} {s : Statement} (h : l.add s = .ok m) :
    m.statements = l.statements.push s ∧ m.size = l.size + s.size := by
  unfold add at h
  split at h
  · simp at h
  · simp only [Except.ok.injEq] at h
    subst h
    exact ⟨rfl, rfl⟩

/-- Only the definition of a name already defined is refused. -/
theorem add_eq_error_iff {l : Listing} {s : Statement} {e : AssemblyError} :
    l.add s = .error e ↔ ∃ d a, s = .label d ∧ l.symbols.get? d.name = some a ∧
      e = ⟨.duplicateLabel d.name, d.span⟩ := by
  cases s with
  | instr i => simp [add_instr]
  | label d =>
    simp only [add, define]
    cases h : l.symbols.insert d.name l.size with
    | error p =>
      have hp := Symbols.insert_eq_error_iff.mp h
      constructor
      · intro he
        simp only [Except.error.injEq] at he
        exact ⟨d, p, rfl, hp, he.symm⟩
      · rintro ⟨d', _, hd, _, he⟩
        cases hd
        simp [he]
    | ok t =>
      constructor
      · intro he
        simp at he
      · rintro ⟨d', a, hd, ha, _⟩
        cases hd
        rw [Symbols.insert_eq_error_iff.mpr ha] at h
        cases h

theorem addAll_append (l : Listing) (as bs : List (Except AssemblyError Statement)) :
    l.addAll (as ++ bs) =
      match l.addAll as with
      | .error e => .error e
      | .ok m => m.addAll bs := by
  induction as generalizing l with
  | nil => rfl
  | cons a as ih =>
    cases a with
    | error e => rfl
    | ok s =>
      simp only [List.cons_append, addAll]
      cases l.add s with
      | error e => rfl
      | ok m => exact ih m

end Listing
end StackMachine
