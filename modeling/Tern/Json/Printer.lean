import Tern.Decimal.Layout
import Tern.Json.Basic

/-!
# Writing JSON

Values are written in front of what follows them, so that nothing is copied.

* `Json.compact` writes a value without blanks;
* `Json.pretty` writes one item to a line, two blanks deeper at each level; empty arrays and
  objects stay on their line.
-/

namespace Tern.Json

/-- The escape of a code unit by its number. -/
def escapeByNumber (u : Nat) : List Char :=
  ['\\', 'u', Nat.digitChar (u / 4096), Nat.digitChar (u / 256 % 16),
    Nat.digitChar (u / 16 % 16), Nat.digitChar (u % 16)]

/-- The escape of a character inside a string. -/
def escape (c : Char) : List Char :=
  match c with
  | '"' => ['\\', '"']
  | '\\' => ['\\', '\\']
  | '\x08' => ['\\', 'b']
  | '\x0c' => ['\\', 'f']
  | '\n' => ['\\', 'n']
  | '\r' => ['\\', 'r']
  | '\t' => ['\\', 't']
  | c =>
    if c.toNat < 0x20 then escapeByNumber c.toNat else [c]

/-- The escape of a code unit that stands alone. -/
def escapeUnit (u : Nat) : List Char :=
  if Text.isHigh u || Text.isLow u then escapeByNumber u else escape (Char.ofNat u)

/-- The escapes of code units: those of characters, and half a pair by its number. -/
def escapeUnits : List Nat → List Char
  | [] => []
  | [u] => escapeUnit u
  | u :: v :: rest =>
    if Text.isHigh u && Text.isLow v then escape (Text.ofPair u v) ++ escapeUnits rest
    else escapeUnit u ++ escapeUnits (v :: rest)

/-- A string in quotes, in front of more text. -/
def quoted (s : Wide) (rest : List Char) : List Char :=
  '"' :: (escapeUnits s.units ++ '"' :: rest)

/-- A value that has no parts, in front of more text. -/
def scalar : Json → List Char → List Char
  | null, rest => 'n' :: 'u' :: 'l' :: 'l' :: rest
  | bool true, rest => 't' :: 'r' :: 'u' :: 'e' :: rest
  | bool false, rest => 'f' :: 'a' :: 'l' :: 's' :: 'e' :: rest
  | number d, rest => d.normalize.chars ++ rest
  | string s, rest => quoted s rest
  | array _, rest => '[' :: ']' :: rest
  | object _, rest => '\x7b' :: '\x7d' :: rest

mutual

/-- A value without blanks, in front of more text. -/
def compactOnto : Json → List Char → List Char
  | array items, rest => '[' :: compactItems items (']' :: rest)
  | object members, rest => '\x7b' :: compactMembers members ('\x7d' :: rest)
  | other, rest => scalar other rest

/-- The items of an array, with commas between them. -/
def compactItems : List Json → List Char → List Char
  | [], rest => rest
  | [item], rest => compactOnto item rest
  | item :: items, rest => compactOnto item (',' :: compactItems items rest)

/-- The members of an object, with commas between them. -/
def compactMembers : List (Wide × Json) → List Char → List Char
  | [], rest => rest
  | [(key, value)], rest => quoted key (':' :: compactOnto value rest)
  | (key, value) :: members, rest =>
    quoted key (':' :: compactOnto value (',' :: compactMembers members rest))

end

/-- A value written without blanks. -/
def compact (j : Json) : String :=
  String.ofList (compactOnto j [])

/-- A line break and the blanks of a level, in front of more text. -/
def newline (level : Nat) (rest : List Char) : List Char :=
  '\n' :: (List.replicate (2 * level) ' ' ++ rest)

mutual

/-- A value over several lines, at a level, in front of more text. -/
def prettyOnto (level : Nat) : Json → List Char → List Char
  | array [], rest => scalar (array []) rest
  | object [], rest => scalar (object []) rest
  | array items, rest => '[' :: prettyItems (level + 1) items (newline level (']' :: rest))
  | object members, rest =>
    '\x7b' :: prettyMembers (level + 1) members (newline level ('\x7d' :: rest))
  | other, rest => scalar other rest

/-- The items of an array, each on a line of its own. -/
def prettyItems (level : Nat) : List Json → List Char → List Char
  | [], rest => rest
  | [item], rest => newline level (prettyOnto level item rest)
  | item :: items, rest =>
    newline level (prettyOnto level item (',' :: prettyItems level items rest))

/-- The members of an object, each on a line of its own. -/
def prettyMembers (level : Nat) : List (Wide × Json) → List Char → List Char
  | [], rest => rest
  | [(key, value)], rest => newline level (quoted key (':' :: ' ' :: prettyOnto level value rest))
  | (key, value) :: members, rest =>
    newline level (quoted key (':' :: ' ' :: prettyOnto level value
      (',' :: prettyMembers level members rest)))

end

/-- A value written over several lines. -/
def pretty (j : Json) : String :=
  String.ofList (prettyOnto 0 j [])

end Tern.Json
