import Tern.Decimal.Basic
import Tern.Table
import Tern.Text.Wide

/-!
# JSON values

Values of JSON, with numbers as decimals and strings as rows of code units, which need not be
texts. An object has each key once: of repeated keys the last value counts, in the place of the
first. Keys that are canonical array indices come first, in ascending order; the others keep the
order in which they were given.

* `Json.arrange` puts entries into that order, by a `Json.Key` of any type;
* `Json.ofMembers` makes an object of members in any order and with repetitions;
* `Json.get?` looks a key up.
-/

namespace Tern

/-- A JSON value. -/
inductive Json where
  | null
  | bool (value : Bool)
  | number (value : Decimal)
  | string (value : Wide)
  | array (items : List Json)
  | object (members : List (Wide × Json))
deriving Inhabited

namespace Json

/-- The value of a key of an object. -/
def get? (key : Wide) : Json → Option Json
  | object members => members.lookup key
  | _ => none

/-- A natural number. -/
def ofNat (n : Nat) : Json := number (.ofNat n)

/-- The greatest key that counts as an array index. -/
def maxIndex : Nat := Nat.pow 2 32 - 2

/-- The array index that a key is: digits without superfluous zeros, in range. -/
def indexOf? (key : String) : Option Nat :=
  let cs := key.toList
  let n := Decimal.valueOfDigits cs
  if cs = Nat.toDigits 10 n && n ≤ maxIndex then some n else none

/-- Keys of which some are array indices. -/
class Key (κ : Type) where
  index? : κ → Option Nat

instance : Key String where
  index? := indexOf?

instance : Key Wide where
  index?
    | .text s => indexOf? s
    | .broken _ _ => none

variable {κ α : Type} [DecidableEq κ] [Key κ]

/-- Members with the array indices in front, ascending. -/
def indicesFirst (members : List (κ × α)) : List (κ × α) :=
  let indexed := members.filterMap fun m => (Key.index? m.1).map (·, m)
  let sorted := indexed.mergeSort fun a b => a.1 ≤ b.1
  sorted.map (·.2) ++ members.filter fun m => (Key.index? m.1).isNone

/-- Members in the order in which objects list them. -/
def arrange (members : List (κ × α)) : List (κ × α) :=
  indicesFirst (Table.ofList members)

/-- The object with the given members. -/
def ofMembers (members : List (Wide × Json)) : Json :=
  object (arrange members)

end Json

end Tern
