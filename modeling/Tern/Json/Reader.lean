import Tern.Decimal.Numeral
import Tern.Json.Basic

/-!
# Reading JSON

A text is cut into lexemes, and the lexemes are taken one after another by a machine that
keeps the arrays and objects still open on a stack. Nesting costs stack cells only, so it is
not bounded.

* `Json.lexemes?` cuts a text;
* `Json.Reader.step?` takes a lexeme;
* `Json.parse?` reads a whole text.
-/

namespace Tern.Json

/-! ## Lexemes -/

/-- A lexeme of JSON. -/
inductive Lexeme where
  | openArray | closeArray | openObject | closeObject | colon | comma
  | value (j : Json)

/-- The number of characters to the end of a string, its closing quote included. -/
def stringLength? : List Char → Option Nat
  | '"' :: _ => some 1
  | '\\' :: _ :: cs => (stringLength? cs).map (· + 2)
  | _ :: cs => (stringLength? cs).map (· + 1)
  | [] => none

/-- The code unit that four hexadecimal digits denote. -/
def hexUnit? (a b c d : Char) : Option Nat := do
  let a ← digit? 16 a
  let b ← digit? 16 b
  let c ← digit? 16 c
  let d ← digit? 16 d
  pure (((a * 16 + b) * 16 + c) * 16 + d)

/-- The character that a one-letter escape stands for. -/
def simpleEscape? : Char → Option Char
  | '"' => some '"'
  | '\\' => some '\\'
  | '/' => some '/'
  | 'b' => some '\x08'
  | 'f' => some '\x0c'
  | 'n' => some '\n'
  | 'r' => some '\r'
  | 't' => some '\t'
  | _ => none

/-- The code units of the inside of a string. -/
def stringUnits? : List Char → Option (List Nat)
  | [] => some []
  | '\\' :: 'u' :: a :: b :: c :: d :: cs => do
    let u ← hexUnit? a b c d
    let rest ← stringUnits? cs
    pure (u :: rest)
  | '\\' :: e :: cs => do
    let c ← simpleEscape? e
    let rest ← stringUnits? cs
    pure (Text.encode c ++ rest)
  | c :: cs => do
    if c.toNat < 0x20 || c = '\\' then none
    else
      let rest ← stringUnits? cs
      pure (Text.encode c ++ rest)

/-- The string with a given inside. -/
def readString? (inside : List Char) : Option Json :=
  (stringUnits? inside).map fun units => .string (Wide.ofUnits units)

/-- The characters of numbers. -/
def isNumberChar (c : Char) : Bool :=
  isDigit c || c == '-' || c == '+' || c == '.' || c == 'e' || c == 'E'

/-- Whether a numeral is one of JSON: no plus sign in front, digits before the point with no
superfluous zero, and digits after it. -/
def isStrict (cs : List Char) : Bool :=
  let body := match cs with
    | '-' :: rest => rest
    | cs => cs
  let whole := body.takeWhile isDigit
  let strictWhole := whole ≠ [] && (whole = ['0'] || whole.head? ≠ some '0')
  let strictFraction := match body.dropWhile isDigit with
    | '.' :: d :: _ => isDigit d
    | '.' :: [] => false
    | _ => true
  strictWhole && strictFraction

/-- The number that a run of number characters denotes. -/
def readNumber? (cs : List Char) : Option Json :=
  if isStrict cs then (Decimal.ofNumeral? cs).map .number else none

/-- The value that a word names. -/
def readWord? (cs : List Char) : Option Json :=
  if cs = ['n', 'u', 'l', 'l'] then some .null
  else if cs = ['t', 'r', 'u', 'e'] then some (.bool true)
  else if cs = ['f', 'a', 'l', 's', 'e'] then some (.bool false)
  else none

/-- The blanks of JSON. -/
def isSpace (c : Char) : Bool :=
  c == ' ' || c == '\t' || c == '\n' || c == '\r'

/-- The marks of JSON. -/
def mark? : Char → Option Lexeme
  | '[' => some .openArray
  | ']' => some .closeArray
  | '\x7b' => some .openObject
  | '\x7d' => some .closeObject
  | ':' => some .colon
  | ',' => some .comma
  | _ => none

/-- The scalar that the text `c :: cs` begins with, and how many characters of `cs` it takes. -/
def scalarAt? (c : Char) (cs : List Char) : Option (Lexeme × Nat) :=
  if c = '"' then do
    let n ← stringLength? cs
    let j ← readString? (cs.take (n - 1))
    pure (.value j, n)
  else if isNumberChar c then do
    let run := cs.takeWhile isNumberChar
    let j ← readNumber? (c :: run)
    pure (.value j, run.length)
  else do
    let run := cs.takeWhile Char.isAlpha
    let j ← readWord? (c :: run)
    pure (.value j, run.length)

/-- Cuts a text, given the lexemes before it (the last one first). -/
def lexemesFrom? (done : List Lexeme) : List Char → Option (List Lexeme)
  | [] => some done.reverse
  | c :: cs =>
    if isSpace c then lexemesFrom? done cs
    else
      match mark? c with
      | some m => lexemesFrom? (m :: done) cs
      | none =>
        match scalarAt? c cs with
        | some (l, n) => lexemesFrom? (l :: done) (cs.drop n)
        | none => none
termination_by cs => cs.length
decreasing_by all_goals simp; try omega

/-- The lexemes of a text, if it can be cut. -/
def lexemes? (text : String) : Option (List Lexeme) :=
  lexemesFrom? [] text.toList

/-! ## The machine -/

/-- An array or object still open: what it holds so far, the last first, and in an object the
key whose value is due. -/
inductive Frame where
  | array (before : List Json)
  | object (before : List (Wide × Json)) (key : Wide)

/-- What the machine waits for, with the frames still open, the innermost first. -/
inductive Reader where
  | value (frames : List Frame)
  | firstItem (frames : List Frame)
  | firstKey (frames : List Frame)
  | nextKey (before : List (Wide × Json)) (frames : List Frame)
  | colon (before : List (Wide × Json)) (key : Wide) (frames : List Frame)
  | afterItem (before : List Json) (frames : List Frame)
  | afterMember (before : List (Wide × Json)) (frames : List Frame)
  | done (j : Json)

namespace Reader

/-- Gives a finished value to the innermost frame. -/
def supply (j : Json) : List Frame → Reader
  | [] => done j
  | .array before :: frames => afterItem (j :: before) frames
  | .object before key :: frames => afterMember ((key, j) :: before) frames

/-- Starts a value. -/
def begin? (frames : List Frame) : Lexeme → Option Reader
  | .openArray => some (firstItem frames)
  | .openObject => some (firstKey frames)
  | .value j => some (supply j frames)
  | _ => none

/-- Takes one lexeme, if it may come now. -/
def step? : Reader → Lexeme → Option Reader
  | value frames, l => begin? frames l
  | firstItem frames, .closeArray => some (supply (.array []) frames)
  | firstItem frames, l => begin? (.array [] :: frames) l
  | firstKey frames, .closeObject => some (supply (.object []) frames)
  | firstKey frames, .value (.string key) => some (colon [] key frames)
  | nextKey before frames, .value (.string key) => some (colon before key frames)
  | colon before key frames, .colon => some (value (.object before key :: frames))
  | afterItem before frames, .comma => some (value (.array before :: frames))
  | afterItem before frames, .closeArray => some (supply (.array before.reverse) frames)
  | afterMember before frames, .comma => some (nextKey before frames)
  | afterMember before frames, .closeObject => some (supply (ofMembers before.reverse) frames)
  | _, _ => none

/-- Takes lexemes one after another. -/
def run? : Reader → List Lexeme → Option Reader
  | r, [] => some r
  | r, l :: rest =>
    match r.step? l with
    | some r => run? r rest
    | none => none

end Reader

/-- The value that a text spells, if it spells exactly one. -/
def parse? (text : String) : Option Json :=
  match (lexemes? text).bind (Reader.value []).run? with
  | some (.done j) => some j
  | _ => none

end Tern.Json
