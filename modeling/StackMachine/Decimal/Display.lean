import StackMachine.Decimal.Shortest
import StackMachine.Word

/-!
# StackMachine.Decimal.Display

The text of a double: its shortest digits, always positional, without a point on whole numbers.

* `Decimal.layout`: digits and a power of ten, written out.
* `Word.display`: the text of a word read as a double.
-/

namespace StackMachine
namespace Decimal

/-- `n * 10 ^ e` without an exponent: zeros are appended, or a point is placed. -/
def layout (n : Nat) (e : Int) : List Char :=
  let ds := Nat.toDigits 10 n
  if 0 ≤ e then ds ++ List.replicate e.toNat '0'
  else
    let places := (-e).toNat
    if places < ds.length then
      ds.take (ds.length - places) ++ '.' :: ds.drop (ds.length - places)
    else '0' :: '.' :: (List.replicate (places - ds.length) '0' ++ ds)

end Decimal

namespace Word

open Decimal

def isNegative (w : Word) : Bool := decide (signBit ≤ w.toNat)

def exponentField (w : Word) : Nat := w.toNat / fractionSize % 2048

def fractionField (w : Word) : Nat := w.toNat % fractionSize

/-- The magnitude of a finite double. The smallest number of a binade has an empty fraction and
lies nearer to the number below it, the first binade apart, below which the gap stays the same. -/
def magnitude (w : Word) : Magnitude :=
  if w.exponentField = 0 then ⟨w.fractionField, -1074, false⟩
  else
    ⟨fractionSize + w.fractionField, (w.exponentField : Int) - 1075,
      w.fractionField = 0 && 1 < w.exponentField⟩

def displayMagnitude (w : Word) : List Char :=
  if w.exponentField = 2047 then ['i', 'n', 'f']
  else if w.magnitude.mant = 0 then ['0']
  else
    let (n, e) := w.magnitude.shortest
    layout n e

/-- The text of the double: a NaN has no sign, every other double, `-0` among them, shows its own. -/
def display (w : Word) : String :=
  if w.isNaN then "NaN"
  else String.ofList (if w.isNegative then '-' :: w.displayMagnitude else w.displayMagnitude)

end Word
end StackMachine
