/-!
# Code units

A column of a source text and the order of strings are both counted in 16-bit code units: a
character up to U+FFFF is one unit, and one above it is a pair of surrogates. Strings
themselves stay lists of characters; this module measures and compares them.

* `units` is the number of units of a character, `unitLength` that of a string;
* `codeUnits` spells a string out in units;
* `before` compares two strings unit by unit;
* `decodeUnits` reads units back as characters.
-/

namespace Tern.Text

/-- The number of code units that encode a character. -/
def units (c : Char) : Nat :=
  if c.toNat < 0x10000 then 1 else 2

/-- The number of code units of a text given as characters. -/
def unitCount (cs : List Char) : Nat :=
  cs.foldr (fun c n => units c + n) 0

/-- The number of code units of a string. -/
def unitLength (s : String) : Nat :=
  unitCount s.toList

/-- The code units of a character: its own number, or a high and a low surrogate. -/
def encode (c : Char) : List Nat :=
  if c.toNat < 0x10000 then [c.toNat]
  else [0xD800 + (c.toNat - 0x10000) / 0x400, 0xDC00 + (c.toNat - 0x10000) % 0x400]

/-- The code units of a string. -/
def codeUnits (s : String) : List Nat :=
  s.toList.flatMap encode

/-- `before a b` holds when `a` comes strictly before `b`, compared unit by unit. -/
def before (a b : String) : Bool :=
  decide (codeUnits a < codeUnits b)

/-- The character that stands for half of a surrogate pair. -/
def replacement : Char := '\uFFFD'

/-- Whether a code unit is the first half of a pair. -/
def isHigh (u : Nat) : Bool := 0xD800 ≤ u && u < 0xDC00

/-- Whether a code unit is the second half of a pair. -/
def isLow (u : Nat) : Bool := 0xDC00 ≤ u && u < 0xE000

/-- The character of a code unit that stands alone. -/
def ofUnit (u : Nat) : Char :=
  if isHigh u || isLow u then replacement else Char.ofNat u

/-- The character of a pair. -/
def ofPair (u v : Nat) : Char :=
  Char.ofNat (0x10000 + (u - 0xD800) * 0x400 + (v - 0xDC00))

/-- The characters that code units spell; half a pair becomes the replacement character. -/
def decodeUnits : List Nat → List Char
  | [] => []
  | [u] => [ofUnit u]
  | u :: v :: rest =>
    if isHigh u && isLow v then ofPair u v :: decodeUnits rest
    else ofUnit u :: decodeUnits (v :: rest)

/-- What is shown of a character when only its first code unit is taken. -/
def firstUnit (c : Char) : Char :=
  if c.toNat < 0x10000 then c else replacement

end Tern.Text
