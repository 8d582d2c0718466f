import Std.Data.TreeMap
import StackMachine.Isa.Instr
import StackMachine.Machine.Fault

/-!
# StackMachine.Machine.Ram

Byte-addressed memory that moves whole words, at any byte offset.

* `Ram.byte`: the view, one byte at each address.
* `Ram.load`, `Ram.store`: eight bytes, in little-endian order, if all of them are inside.
* `Ram.words`: the aligned words that are not zero.

Only bytes that were written are kept; every other byte is zero.
-/

namespace StackMachine

structure Ram where
  capacity : Nat
  cells : Std.TreeMap Nat UInt8

namespace Ram

def wordSize : Nat := 8

def standardCapacity : Nat := 51200

def zero (capacity : Nat) : Ram := ⟨capacity, ∅⟩

def byte (m : Ram) (a : Nat) : UInt8 := m.cells.getD a 0

def bytes (m : Ram) : Nat → Nat → List UInt8
  | _, 0 => []
  | a, n + 1 => m.byte a :: m.bytes (a + 1) n

/-- The word at an address, inside memory or not. -/
def word (m : Ram) (a : Nat) : Word := Word.ofBytes (m.bytes a wordSize)

def fits (m : Ram) (a : Int) : Bool := decide (0 ≤ a ∧ a + wordSize ≤ m.capacity)

def load (m : Ram) (a : Int) : Except Fault Word :=
  if m.fits a then .ok (m.word a.toNat) else .error .invalidRamAddress

def write (m : Ram) : Nat → List UInt8 → Ram
  | _, [] => m
  | a, b :: bs => write { m with cells := m.cells.insert a b } (a + 1) bs

def store (m : Ram) (a : Int) (w : Word) : Except Fault Ram :=
  if m.fits a then .ok (m.write a.toNat w.bytes) else .error .invalidRamAddress

/-- The words at multiples of the word size that are not zero, with their addresses, in order. -/
def words (m : Ram) : List (Nat × Word) :=
  let starts := (m.cells.keys.map fun a => a / wordSize * wordSize).eraseReps
  (starts.map fun a => (a, m.word a)).filter fun p => p.2 != .zero

theorem byte_zero (capacity a : Nat) : (zero capacity).byte a = 0 := by simp [zero, byte]

theorem capacity_write (m : Ram) (a : Nat) (bs : List UInt8) :
    (m.write a bs).capacity = m.capacity := by
  induction bs generalizing m a with
  | nil => rfl
  | cons b bs ih => simp [write, ih]

theorem byte_write (m : Ram) (a : Nat) (bs : List UInt8) (x : Nat) :
    (m.write a bs).byte x = if a ≤ x then bs.getD (x - a) (m.byte x) else m.byte x := by
  induction bs generalizing m a with
  | nil => simp [write]
  | cons b bs ih =>
    rw [write, ih]
    by_cases hx : a = x
    · subst hx
      have h : ¬ a + 1 ≤ a := by omega
      simp [h, byte]
    · have hc : compare a x ≠ .eq := by simpa [Nat.compare_eq_eq] using hx
      have hb : byte { m with cells := m.cells.insert a b } x = m.byte x := by
        simp [byte, Std.TreeMap.getD_insert, hc]
      rw [hb]
      by_cases hl : a ≤ x
      · have h₁ : a + 1 ≤ x := by omega
        have h₂ : x - a = (x - (a + 1)) + 1 := by omega
        rw [if_pos h₁, if_pos hl, h₂, List.getD_cons_succ]
      · have h₁ : ¬ a + 1 ≤ x := by omega
        rw [if_neg h₁, if_neg hl]

theorem capacity_store {m n : Ram} {a : Int} {w : Word} (h : m.store a w = .ok n) :
    n.capacity = m.capacity := by
  unfold store at h
  split at h
  · simp only [Except.ok.injEq] at h
    subst h
    exact capacity_write _ _ _
  · simp at h

end Ram
end StackMachine
