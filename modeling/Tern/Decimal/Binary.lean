/-!
# Doubles as integers

Every finite double is `± mantissa · 2 ^ exponent`. `Binary` holds these three parts,
`Binary.ofFloat?` takes them out of the bits of a double and `Binary.toFloat` puts them back.
Questions that need exact answers (is it whole, what is the remainder, which decimals read
back as it) are settled here on integers.
-/

namespace Tern

/-- The number `± mantissa · 2 ^ exponent`. -/
structure Binary where
  negative : Bool
  mantissa : Nat
  exponent : Int
deriving DecidableEq, Repr

namespace Binary

/-- The parts of a finite double; infinities and NaN have none. -/
def ofFloat? (x : Float) : Option Binary :=
  let bits : Nat := x.toBits.toNat
  let negative := decide (Nat.pow 2 63 ≤ bits)
  let biased : Nat := bits / Nat.pow 2 52 % Nat.pow 2 11
  let fraction : Nat := bits % Nat.pow 2 52
  if biased = Nat.pow 2 11 - 1 then none
  else if biased = 0 then some ⟨negative, fraction, -1074⟩
  else some ⟨negative, fraction + Nat.pow 2 52, (biased : Int) - 1075⟩

/-- The double of a number whose mantissa has at most 53 bits and whose exponent is in range. -/
def toFloat (b : Binary) : Float :=
  let signBit := if b.negative then Nat.pow 2 63 else 0
  if b.mantissa = 0 then Float.ofBits (UInt64.ofNat signBit)
  else
    let shift := min (52 - Nat.log2 b.mantissa) (b.exponent + 1074).toNat
    let mantissa := b.mantissa * Nat.pow 2 shift
    let exponent := b.exponent - shift
    let magnitude :=
      if mantissa < Nat.pow 2 52 then mantissa
      else (exponent + 1075).toNat * Nat.pow 2 52 + (mantissa - Nat.pow 2 52)
    Float.ofBits (UInt64.ofNat (signBit + magnitude))

/-- The absolute value, if it is a whole number. -/
def magnitude? (b : Binary) : Option Nat :=
  if 0 ≤ b.exponent then some (b.mantissa * Nat.pow 2 b.exponent.toNat)
  else
    let scale := Nat.pow 2 b.exponent.natAbs
    if b.mantissa % scale = 0 then some (b.mantissa / scale) else none

/-- The integer that the number is, if it is one. -/
def toInt? (b : Binary) : Option Int :=
  b.magnitude?.map fun n => if b.negative then -(n : Int) else n

/-- What is left of `a` after the whole multiples of `b` are taken off, with the sign of `a`. -/
def remainder (a b : Binary) : Binary :=
  let exponent := min a.exponent b.exponent
  let x := a.mantissa * Nat.pow 2 (a.exponent - exponent).toNat
  let y := b.mantissa * Nat.pow 2 (b.exponent - exponent).toNat
  ⟨a.negative, x % y, exponent⟩

end Binary

end Tern
