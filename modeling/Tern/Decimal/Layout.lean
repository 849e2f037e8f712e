import Tern.Decimal.Nearest
import Tern.Decimal.Shortest

/-!
# Number texts

How the language writes numbers: the digits of the shortest decimal, positionally while the
point stands within 21 places after the first digit or 6 places before it, and with an
exponent beyond. The sign of zero is not written.

* `Decimal.text` lays a decimal out;
* `Number.text` writes any double.
-/

namespace Tern

namespace Decimal

/-- The least and the greatest place of the point, counted after the first digit, at which a
decimal is still written positionally. -/
def leastPoint : Int := -5

@[inherit_doc leastPoint] def greatestPoint : Int := 21

/-- The text of a power of ten. -/
def exponentText (e : Int) : List Char :=
  'e' :: (if e < 0 then '-' else '+') :: Nat.toDigits 10 e.natAbs

/-- Lays out digits with the point after `point` places. -/
def layOut (digits : List Char) (point : Int) : List Char :=
  let count : Int := digits.length
  if leastPoint ≤ point && point ≤ greatestPoint then
    if count ≤ point then digits ++ List.replicate (point - count).toNat '0'
    else if 0 < point then digits.take point.toNat ++ '.' :: digits.drop point.toNat
    else '0' :: '.' :: List.replicate (-point).toNat '0' ++ digits
  else
    match digits with
    | [] => exponentText (point - 1)
    | [d] => d :: exponentText (point - 1)
    | d :: rest => d :: '.' :: rest ++ exponentText (point - 1)

/-- The characters of a decimal whose coefficient has no factor of ten. -/
def chars (d : Decimal) : List Char :=
  if d.coefficient = 0 then ['0']
  else
    let digits := Nat.toDigits 10 d.coefficient
    let body := layOut digits (digits.length + d.exponent)
    if d.negative then '-' :: body else body

/-- The text of a decimal. -/
def text (d : Decimal) : String :=
  String.ofList d.normalize.chars

end Decimal

namespace Number

/-- The text of a double. -/
def text (x : Float) : String :=
  match Decimal.ofFloat? x with
  | some d => d.text
  | none => if x.isNaN then "NaN" else if x < 0 then "-Infinity" else "Infinity"

/-- The text of a double in which negative zero keeps its sign. -/
def signedText (x : Float) : String :=
  match Decimal.ofFloat? x with
  | some ⟨true, 0, _⟩ => "-0"
  | _ => text x

/-- The whole number that a double is, if it is one. -/
def toInt? (x : Float) : Option Int :=
  (Binary.ofFloat? x).bind Binary.toInt?

/-- The remainder of a division that truncates, with the sign of the dividend. It is not a
number when the dividend is infinite or the divisor zero; an infinite divisor leaves the
dividend. -/
def remainder (x y : Float) : Float :=
  match Binary.ofFloat? x, Binary.ofFloat? y with
  | some a, some b => if b.mantissa = 0 then 0.0 / 0.0 else (a.remainder b).toFloat
  | some _, none => if y.isNaN then y else x
  | none, _ => 0.0 / 0.0

end Number

/-- Whole numbers from here on are not all doubles. -/
def Decimal.exactBound : Nat := Nat.pow 2 53

/-- The decimal in which a count is written: its own digits while all whole numbers are
doubles, the shortest decimal of the nearest double beyond. -/
def Decimal.ofCount (n : Nat) : Decimal :=
  if n < exactBound then ofNat n else ((ofFloat? (ofNat n).toFloat).getD (ofNat n))

/-- The text of a count. -/
def Number.countText (n : Nat) : String :=
  (Decimal.ofCount n).text

/-- The number that a decimal is, if it is whole and so small that every whole number up to it
is a double. -/
def Decimal.small? (d : Decimal) : Option Nat :=
  if d.negative || d.exponent < 0 || 16 < d.exponent then none
  else
    let n := d.coefficient * Nat.pow 10 d.exponent.toNat
    if n < exactBound then some n else none

/-- The whole number that the double nearest to a decimal is, if it is a positive one. -/
def Decimal.toCount? (d : Decimal) : Option Nat :=
  match d.small? with
  | some n => if 0 < n then some n else none
  | none =>
    match Number.toInt? d.toFloat with
    | some (Int.ofNat (k + 1)) => some (k + 1)
    | _ => none

end Tern
