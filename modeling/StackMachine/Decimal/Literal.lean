import StackMachine.Decimal.Digits
import StackMachine.Decimal.Nearest

/-!
# StackMachine.Decimal.Literal

Reading a double from text. A literal is an optional sign before either a name (`inf`, `infinity`
or `nan`, in any case) or digits with an optional point, at least one digit in all, and an optional
exponent with at least one digit of its own. The value is rounded correctly.

* `Decimal.Scientific`: the whole number and the power of ten that digits stand for.
* `Decimal.scientific?`: reads the digits.
* `Decimal.Scientific.bits`: the bits of the nearest double.
* `Decimal.literal?`: reads a literal.
-/

namespace StackMachine
namespace Decimal

/-- The number `digits * 10 ^ exponent`. -/
structure Scientific where
  digits : Nat
  exponent : Int
deriving DecidableEq

/-- The exponent part: nothing, or a letter and a signed whole number. -/
def exponent? : List Char → Option Int
  | [] => some 0
  | c :: cs => if c = 'e' || c = 'E' then signed? cs else none

def scientific? (cs : List Char) : Option Scientific :=
  let whole := cs.takeWhile isDigit
  let rest := cs.dropWhile isDigit
  let afterPoint := match rest with
    | '.' :: r => r
    | _ => []
  let fraction := afterPoint.takeWhile isDigit
  let tail := match rest with
    | '.' :: r => r.dropWhile isDigit
    | _ => rest
  if whole.isEmpty && fraction.isEmpty then none
  else (exponent? tail).map fun e => ⟨value (whole ++ fraction), e - fraction.length⟩

/-- The bits of the nearest double. Beyond four hundred places before or behind the point every
number is infinite or zero, whatever its digits, so that no power of ten grows beyond that. -/
def Scientific.bits (x : Scientific) : Nat :=
  if x.digits = 0 then 0
  else
    let top := (Nat.toDigits 10 x.digits).length + x.exponent
    if 400 < top then infinityBits
    else if top < -400 then 0
    else nearest (x.digits * Nat.pow 10 x.exponent.toNat) (Nat.pow 10 (-x.exponent).toNat)

def magnitude? (cs : List Char) : Option Nat :=
  let name := cs.map Char.toLower
  if name = ['i', 'n', 'f'] || name = ['i', 'n', 'f', 'i', 'n', 'i', 't', 'y'] then
    some infinityBits
  else if name = ['n', 'a', 'n'] then some 0x7ff8000000000000
  else (scientific? cs).map Scientific.bits

/-- The word of a literal: a minus sign sets the leading bit, of a NaN too. -/
def literal? (cs : List Char) : Option Word :=
  let (negative, rest) := takeSign cs
  (magnitude? rest).map fun bits =>
    ⟨UInt64.ofNat (if negative then bits + Word.signBit else bits)⟩

end Decimal
end StackMachine
