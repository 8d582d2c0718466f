/-!
# StackMachine.Decimal.Digits

Decimal digits and their value.

* `Decimal.isDigit`: the ten ASCII digits.
* `Decimal.value`: the number a digit sequence stands for, most significant digit first.
* `Decimal.natural?`: digits with nothing else around them.
* `Decimal.signed?`: an optional sign and digits.
-/

namespace StackMachine
namespace Decimal

def isDigit (c : Char) : Bool := '0' ≤ c && c ≤ '9'

def digitValue (c : Char) : Nat := c.toNat - '0'.toNat

def value (ds : List Char) : Nat := ds.foldl (fun n c => 10 * n + digitValue c) 0

/-- Splits an optional sign off; `true` means a minus. -/
def takeSign : List Char → Bool × List Char
  | '-' :: cs => (true, cs)
  | '+' :: cs => (false, cs)
  | cs => (false, cs)

def natural? (cs : List Char) : Option Nat :=
  if !cs.isEmpty && cs.all isDigit then some (value cs) else none

/-- An optional sign before a non-empty sequence of digits. -/
def signed? (cs : List Char) : Option Int :=
  let (negative, ds) := takeSign cs
  (natural? ds).map fun n => if negative then -(n : Int) else n

theorem natural?_eq_some_iff {cs : List Char} {n : Nat} :
    natural? cs = some n ↔ cs ≠ [] ∧ (∀ c ∈ cs, isDigit c) ∧ value cs = n := by
  simp [natural?, and_assoc]

end Decimal
end StackMachine
