import StackMachine.Word

/-!
# StackMachine.Decimal.Nearest

The double nearest to a fraction of two natural numbers, as the bits below its sign.

* `Decimal.halfEven`: a quotient rounded to the nearest whole number, a tie to the even one.
* `Decimal.nearest`: the bits of the double nearest to `num / den`.

The significand is the quotient rounded on the grid of its binade. A significand rounded up to the
next power of two carries into the exponent field by itself, because the fields are added.
-/

namespace StackMachine
namespace Decimal

def infinityBits : Nat := 0x7ff0000000000000

/-- `num / den` rounded to the nearest whole number; a tie goes to the even one. -/
def halfEven (num den : Nat) : Nat :=
  let floor := num / den
  let twice := 2 * (num % den)
  if twice < den then floor
  else if den < twice then floor + 1
  else floor + floor % 2

/-- The exponent of the last significand bit of a double of magnitude `num / den`: the quotient,
scaled by it, has 53 bits, or fewer where the exponent is already the least one. -/
def gridExponent (num den : Nat) : Int :=
  let guess : Int := (num.log2 : Int) - den.log2
  let reaches := den * Nat.pow 2 guess.toNat ≤ num * Nat.pow 2 (-guess).toNat
  max (-1074) ((if reaches then guess else guess - 1) - 52)

/-- The bits of the double nearest to `num / den`, for a positive `den`. -/
def nearest (num den : Nat) : Nat :=
  if num = 0 then 0
  else
    let e := gridExponent num den
    let significand := halfEven (num * Nat.pow 2 (-e).toNat) (den * Nat.pow 2 e.toNat)
    min infinityBits ((e + 1074).toNat * Word.fractionSize + significand)

end Decimal
end StackMachine
