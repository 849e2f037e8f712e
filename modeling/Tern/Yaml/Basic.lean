import Tern.Decimal.Layout
import Tern.Decimal.Numeral
import Tern.Json.Basic

/-!
# YAML values

The values of the configuration format and what plain scalars mean: the words for null and the
truth values, whole numbers in three bases, decimals, the words for what is not a number, and
text otherwise.

* `Yaml.ofPlain` resolves a plain scalar;
* `Yaml.keyText` is the name under which a value keys a mapping;
* `Yaml.ofEntries?` makes a mapping.
-/

namespace Tern

/-- A value of the configuration format. A mapping has each key once. -/
inductive Yaml where
  | null
  | bool (value : Bool)
  | number (value : Float)
  | string (value : String)
  | list (items : List Yaml)
  | mapping (entries : List (String × Yaml))
deriving Inhabited

namespace Yaml

/-- The words for null. -/
def nullWords : List String := ["", "~", "null", "Null", "NULL"]

/-- The words for true. -/
def trueWords : List String := ["true", "True", "TRUE"]

/-- The words for false. -/
def falseWords : List String := ["false", "False", "FALSE"]

/-- The words for what is not a number. -/
def nanWords : List String := [".nan", ".NaN", ".NAN"]

/-- The words for infinity, a sign aside. -/
def infinityWords : List String := [".inf", ".Inf", ".INF"]

/-- The double of a number scalar. -/
def numeral? (cs : List Char) : Option Float :=
  match cs with
  | '0' :: 'o' :: digits => (natural? 8 digits).map Number.ofNat
  | '0' :: 'x' :: digits => (natural? 16 digits).map Number.ofNat
  | cs => (Decimal.ofNumeral? cs).map Decimal.toFloat

/-- The double of a word that stands for no finite number. -/
def special? (cs : List Char) : Option Float :=
  let (negative, rest) := Decimal.takeSign cs
  if infinityWords.contains (String.ofList rest) then
    some (if negative then -(1.0 / 0.0) else 1.0 / 0.0)
  else if nanWords.contains (String.ofList cs) then some (0.0 / 0.0)
  else none

/-- The meaning of a plain scalar. -/
def ofPlain (cs : List Char) : Yaml :=
  let s := String.ofList cs
  if nullWords.contains s then null
  else if trueWords.contains s then bool true
  else if falseWords.contains s then bool false
  else
    match numeral? cs <|> special? cs with
    | some x => number x
    | none => string s

/-- The key that a scalar makes; what is no scalar makes none. -/
def keyText : Yaml → Option String
  | null => some ""
  | bool b => some (if b then "true" else "false")
  | number x => some (Number.text x)
  | string s => some s
  | list _ => none
  | mapping _ => none

/-- Whether two scalars are one key: values of one type that are equal. -/
def isSameKey : Yaml → Yaml → Bool
  | null, null => true
  | bool a, bool b => a == b
  | number x, number y => x == y
  | string s, string t => s == t
  | _, _ => false

/-- Whether a key comes twice. -/
def hasTwice : List Yaml → Bool
  | [] => false
  | key :: keys => keys.any (isSameKey key) || hasTwice keys

/-- The mapping of entries in the order in which they stand, unless a key comes twice. Of keys
that differ but have one name, the first gives the place and the last the value. -/
def ofEntries? (entries : List (Yaml × Yaml)) : Option Yaml :=
  if hasTwice (entries.map (·.1)) then none
  else do
    let named ← entries.mapM fun e => (keyText e.1).map (·, e.2)
    pure (mapping (Json.arrange named))

end Yaml

end Tern
