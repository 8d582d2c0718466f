/-!
# StackMachine.Decimal.Shortest

The fewest decimal digits that identify a double among all doubles.

* `Decimal.Magnitude`: a positive number `mant * 2 ^ exp` and how near its lower neighbour is.
* `Decimal.Magnitude.identifies`: whether a multiple of a power of ten reads back as this number.
* `Decimal.Magnitude.nearestOn`: the multiple of `10 ^ e` nearest to it, among those that do.
* `Decimal.Magnitude.shortest`: the coarsest such grid that has one, and the multiple.

A number is identified by all reals between the middles of the gaps to its two neighbours, the
middles included when its significand is even. All comparisons are of natural numbers, with the
number counted in quarters of its last place.
-/

namespace StackMachine
namespace Decimal

/-- The positive number `mant * 2 ^ exp`; `atBinade` when the gap below is half the gap above. -/
structure Magnitude where
  mant : Nat
  exp : Int
  atBinade : Bool

namespace Magnitude

/-- Number of bits of the quarters, and so a power of two above the number. -/
def bitLength (x : Magnitude) : Int := (4 * x.mant + 2).log2 + 1 + (x.exp - 2)

/-- Where the interval that identifies the number begins, in quarters of the last place. -/
def low (x : Magnitude) : Nat := 4 * x.mant - (if x.atBinade then 1 else 2)

def high (x : Magnitude) : Nat := 4 * x.mant + 2

/-- `quarters * 2 ^ (exp - 2)` in units of `10 ^ e` is `quarters * scale / unit`. -/
def scale (x : Magnitude) (e : Int) : Nat :=
  Nat.pow 2 (x.exp - 2).toNat * Nat.pow 10 (-e).toNat

def unit (x : Magnitude) (e : Int) : Nat :=
  Nat.pow 2 (2 - x.exp).toNat * Nat.pow 10 e.toNat

/-- Whether `n * 10 ^ e` reads back as this number. -/
def identifies (x : Magnitude) (e : Int) (n : Nat) : Bool :=
  let point := n * x.unit e
  let first := x.low * x.scale e
  let last := x.high * x.scale e
  if x.mant % 2 = 0 then first ≤ point && point ≤ last else first < point && point < last

/-- The multiple of `10 ^ e` nearest to the number among those that identify it; of two at the
same distance the larger one. -/
def nearestOn (x : Magnitude) (e : Int) : Option Nat :=
  let quarters := 4 * x.mant * x.scale e
  let below := quarters / x.unit e
  match x.identifies e below, x.identifies e (below + 1) with
  | true, true => some (if 2 * quarters < (2 * below + 1) * x.unit e then below else below + 1)
  | true, false => some below
  | false, true => some (below + 1)
  | false, false => none

def search (x : Magnitude) : Nat → Int → Nat × Int
  | 0, e => (4 * x.mant * x.scale e / x.unit e, e)
  | fuel + 1, e =>
    match x.nearestOn e with
    | some n => (n, e)
    | none => x.search fuel (e - 1)

/-- Digits and exponent of the shortest decimal. The search begins at a power of ten above the
number (`1234 / 4096` is a little more than the logarithm of two) and seventeen digits suffice. -/
def shortest (x : Magnitude) : Nat × Int := x.search 25 (x.bitLength * 1234 / 4096 + 2)

end Magnitude
end Decimal
end StackMachine
