/-!
# Blanks

The characters that are cut off the ends of a text before it is read as a number, a flag or a
limit: the ASCII blanks, the two line separators, the byte order mark and every space
separator of Unicode.
-/

namespace Tern.Text

/-- The blank characters. -/
def isBlank (c : Char) : Bool :=
  let n := c.toNat
  (0x09 ≤ n && n ≤ 0x0D) || n == 0x20 || n == 0xA0 || n == 0x1680
    || (0x2000 ≤ n && n ≤ 0x200A) || n == 0x2028 || n == 0x2029 || n == 0x202F
    || n == 0x205F || n == 0x3000 || n == 0xFEFF

/-- A text without the blanks at both of its ends. -/
def trimChars (cs : List Char) : List Char :=
  ((cs.dropWhile isBlank).reverse.dropWhile isBlank).reverse

/-- A string without the blanks at both of its ends. -/
def trim (s : String) : String :=
  String.ofList (trimChars s.toList)

end Tern.Text
