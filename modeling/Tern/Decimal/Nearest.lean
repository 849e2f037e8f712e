import Tern.Decimal.Basic

/-!
# The double nearest to a decimal

The bits of a positive double, read as a number, tell how many doubles lie between zero and it.
The double nearest to a positive number is therefore found in two steps: the number is measured
in units of the least double, and of the bits of that measure those that do not fit a mantissa
are rounded away. For each bit rounded away the bits of the double grow by `2 ^ 52`, and a
mantissa rounded up to the next power of two carries over by itself.

* `Binary.nearestBits` is the double nearest to a fraction, as bits;
* `Decimal.toFloat` is the double nearest to a decimal.
-/

namespace Tern

/-- The whole number nearest to `n / d`; of two equally near ones the even. -/
def roundDiv (n d : Nat) : Nat :=
  let q := n / d
  let r := n % d
  if 2 * r < d then q
  else if d < 2 * r then q + 1
  else q + q % 2

namespace Binary

/-- How many of the least doubles make one. -/
def unit : Nat := Nat.pow 2 1074

/-- The bits of infinity. -/
def infinityBits : Nat := 2047 * Nat.pow 2 52

/-- The bits of the double nearest to `n / d`; beyond the largest double, those of infinity. -/
def nearestBits (n d : Nat) : Nat :=
  let units := n * unit
  let dropped := Nat.log2 (units / d) - 52
  min (dropped * Nat.pow 2 52 + roundDiv units (d * Nat.pow 2 dropped)) infinityBits

end Binary

namespace Decimal

/-- The bits of the double nearest to the absolute value. A factor of ten is worth three bits at
least, which tells decimals far out of range without working them out. -/
def magnitudeBits (d : Decimal) : Nat :=
  let bits : Int := Nat.log2 d.coefficient + 3 * d.exponent
  if d.coefficient = 0 then 0
  else if 0 ≤ d.exponent then
    if 1100 < bits then Binary.infinityBits
    else Binary.nearestBits (d.coefficient * Nat.pow 10 d.exponent.toNat) 1
  else if bits < -1100 then 0
  else Binary.nearestBits d.coefficient (Nat.pow 10 d.exponent.natAbs)

/-- The double nearest to a decimal; beyond the largest double it is infinite. -/
def toFloat (d : Decimal) : Float :=
  let sign := if d.negative then Nat.pow 2 63 else 0
  Float.ofBits (UInt64.ofNat (sign + d.magnitudeBits))

end Decimal

end Tern
