import Tern.Decimal.Nearest
import Tern.Text.Blank

/-!
# Numerals

The texts that `num` accepts: an optional sign, digits with an optional point among or after
them or a point before them, and an optional exponent, with blanks around. Anything else is
not a numeral.

The value of a number literal may be given by a text of a wider form, in which a letter after
a leading zero chooses the base of what follows and there is a word for infinity.

* `Decimal.ofNumeral?` reads a numeral without blanks;
* `Number.parse?` reads a numeral as a double;
* `natural?` reads digits in a base;
* `Number.ofText` reads any text as a double, which may be no number.
-/

namespace Tern

/-- The decimal digits. -/
def isDigit (c : Char) : Bool :=
  '0' ≤ c && c ≤ '9'

namespace Decimal

/-- A leading sign and the rest; the sign is `true` for minus. -/
def takeSign : List Char → Bool × List Char
  | '-' :: cs => (true, cs)
  | '+' :: cs => (false, cs)
  | cs => (false, cs)

/-- A leading row of digits and the rest. -/
def takeDigits (cs : List Char) : List Char × List Char :=
  (cs.takeWhile isDigit, cs.dropWhile isDigit)

/-- The exponent that ends a numeral; nothing at all stands for zero. -/
def readExponent? : List Char → Option Int
  | [] => some 0
  | c :: cs =>
    if c = 'e' || c = 'E' then
      let (negative, digits) := takeSign cs
      if digits ≠ [] && digits.all isDigit then
        let n : Int := valueOfDigits digits
        some (if negative then -n else n)
      else none
    else none

/-- The decimal that a numeral denotes. -/
def ofNumeral? (cs : List Char) : Option Decimal :=
  let (negative, cs) := takeSign cs
  let (whole, cs) := takeDigits cs
  match cs with
  | '.' :: cs =>
    let (fraction, cs) := takeDigits cs
    if whole = [] && fraction = [] then none
    else (readExponent? cs).map (ofDigits negative whole fraction)
  | cs => if whole = [] then none else (readExponent? cs).map (ofDigits negative whole [])

end Decimal

/-! ## Other bases -/

/-- The value of a digit in a base up to sixteen. -/
def digit? (base : Nat) (c : Char) : Option Nat :=
  let n :=
    if isDigit c then some (c.toNat - '0'.toNat)
    else if 'a' ≤ c && c ≤ 'f' then some (c.toNat - 'a'.toNat + 10)
    else if 'A' ≤ c && c ≤ 'F' then some (c.toNat - 'A'.toNat + 10)
    else none
  n.filter (· < base)

/-- The number that digits spell in a base; there must be one digit at least. -/
def natural? (base : Nat) (cs : List Char) : Option Nat :=
  if cs = [] then none
  else cs.foldlM (fun n c => (digit? base c).map (n * base + ·)) 0

/-- The base that a letter after a leading zero chooses. -/
def baseOf? : Char → Option Nat
  | 'x' | 'X' => some 16
  | 'o' | 'O' => some 8
  | 'b' | 'B' => some 2
  | _ => none

/-! ## Doubles -/

namespace Number

/-- The double nearest to a natural number. -/
def ofNat (n : Nat) : Float := (Decimal.ofNat n).toFloat

/-- The double that a text denotes, blanks around it aside. -/
def parse? (text : String) : Option Float :=
  (Decimal.ofNumeral? (Text.trimChars text.toList)).map Decimal.toFloat

/-- Infinity, written as a word that may have a sign. -/
def ofWord? (cs : List Char) : Option Float :=
  let (negative, word) := Decimal.takeSign cs
  if word = "Infinity".toList then some (if negative then -(1.0 / 0.0) else 1.0 / 0.0) else none

/-- The double that digits after a choice of base spell. -/
def ofBased? : List Char → Option Float
  | '0' :: c :: digits => do
    let n ← natural? (← baseOf? c) digits
    pure (ofNat n)
  | _ => none

/-- The double that a text stands for, blanks around it aside. An empty text stands for zero
and what has no other meaning for no number. -/
def ofText (text : String) : Float :=
  let cs := Text.trimChars text.toList
  if cs = [] then 0.0
  else (ofBased? cs <|> ofWord? cs <|> parse? text).getD (0.0 / 0.0)

end Number

end Tern
