/-!
# Decimals

A `Decimal` is a sign, a coefficient and a power of ten. Number texts are read into decimals
and written from them.

* `Decimal.normalize` takes factors of ten out of the coefficient;
* `Decimal.ofDigits` assembles a decimal from the parts of a number text.
-/

namespace Tern

/-- The number `± coefficient · 10 ^ exponent`. -/
structure Decimal where
  negative : Bool
  coefficient : Nat
  exponent : Int
deriving DecidableEq, Repr

namespace Decimal

/-- Takes up to `fuel` factors of ten out of a coefficient. -/
def stripZeros : Nat → Nat → Int → Nat × Int
  | 0, c, e => (c, e)
  | fuel + 1, c, e => if c % 10 == 0 then stripZeros fuel (c / 10) (e + 1) else (c, e)

/-- The same number with the least coefficient; zero has exponent zero. -/
def normalize (d : Decimal) : Decimal :=
  if d.coefficient = 0 then ⟨d.negative, 0, 0⟩
  else
    let (c, e) := stripZeros (Nat.log2 d.coefficient) d.coefficient d.exponent
    ⟨d.negative, c, e⟩

/-- The decimal of a natural number. -/
def ofNat (n : Nat) : Decimal :=
  normalize ⟨false, n, 0⟩

/-- The value of a decimal digit. -/
def digitValue (c : Char) : Nat :=
  c.toNat - '0'.toNat

/-- The natural number that a row of decimal digits spells. -/
def valueOfDigits (cs : List Char) : Nat :=
  cs.foldl (fun n c => n * 10 + digitValue c) 0

/-- The decimal written as whole digits, fraction digits and an exponent. -/
def ofDigits (negative : Bool) (whole fraction : List Char) (exponent : Int) : Decimal :=
  normalize ⟨negative, valueOfDigits (whole ++ fraction), exponent - fraction.length⟩

end Decimal

end Tern
