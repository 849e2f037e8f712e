import Tern.Decimal.Basic
import Tern.Decimal.Binary

/-!
# The shortest decimal of a double

A double stands for the interval of reals that round to it; the ends belong to it when its
mantissa is even. Of the decimals in that interval the shortest are wanted, of these the
nearest to the double, and of two equally near ones the even. For 1, 2, … digits the two
neighbours of the double on the grid of that many digits are tested in exact arithmetic, and
the first grid with a hit decides.

* `Decimal.ofFloat?` is the shortest decimal of a finite double.
-/

namespace Tern.Decimal

/-- A positive double and the ends of its interval, over one denominator. -/
structure Target where
  low : Nat
  value : Nat
  high : Nat
  denominator : Nat
  closed : Bool

/-- The interval of `mantissa · 2 ^ exponent`. Below a power of two the gap is half as wide. -/
def Target.ofBinary (b : Binary) : Target :=
  let narrow := decide (b.mantissa = Nat.pow 2 52) && decide (-1074 < b.exponent)
  let up := Nat.pow 2 (b.exponent - 2).toNat
  { low := (4 * b.mantissa - if narrow then 1 else 2) * up
    value := 4 * b.mantissa * up
    high := (4 * b.mantissa + 2) * up
    denominator := Nat.pow 2 (2 - b.exponent).toNat
    closed := b.mantissa % 2 == 0 }

/-- The target measured in units of `10 ^ place`. -/
def Target.scale (t : Target) (place : Int) : Target :=
  let up := Nat.pow 10 (-place).toNat
  { t with
    low := t.low * up
    value := t.value * up
    high := t.high * up
    denominator := t.denominator * Nat.pow 10 place.toNat }

/-- Whether a whole number of units reads back as the double. -/
def Target.holds (t : Target) (n : Nat) : Bool :=
  let x := n * t.denominator
  if t.closed then t.low ≤ x && x ≤ t.high else t.low < x && x < t.high

/-- The nearer of the two neighbours of the target that read back as it. -/
def Target.pick? (t : Target) : Option Nat :=
  let below := t.value / t.denominator
  let rest := t.value % t.denominator
  match t.holds below, t.holds (below + 1) with
  | true, true =>
    if 2 * rest < t.denominator then some below
    else if t.denominator < 2 * rest then some (below + 1)
    else some (if below % 2 == 0 then below else below + 1)
  | true, false => some below
  | false, true => some (below + 1)
  | false, false => none

/-- Tries the grids `10 ^ place`, `10 ^ (place - 1)`, … until one has a hit. -/
def Target.search (t : Target) : Nat → Int → Decimal
  | 0, place => ⟨false, (t.scale place).value / (t.scale place).denominator, place⟩
  | fuel + 1, place =>
    match (t.scale place).pick? with
    | some n => ⟨false, n, place⟩
    | none => t.search fuel (place - 1)

/-- A power of ten that lifts the target to one at least: `31 / 100` is a little more than the
logarithm of two. -/
def Target.lift (t : Target) : Nat :=
  (Nat.log2 t.denominator + 1 - Nat.log2 t.value) * 31 / 100 + 1

/-- The place of the first digit: the greatest `k` with `10 ^ k` at most the target. -/
def Target.leadingPlace (t : Target) : Int :=
  ((Nat.toDigits 10 (t.value * Nat.pow 10 t.lift / t.denominator)).length : Int) - (t.lift + 1)

/-- The shortest decimal that reads back as a finite double. -/
def ofFloat? (x : Float) : Option Decimal :=
  (Binary.ofFloat? x).map fun b =>
    if b.mantissa = 0 then ⟨b.negative, 0, 0⟩
    else
      let t := Target.ofBinary b
      let d := t.search 17 t.leadingPlace
      normalize { d with negative := b.negative }

end Tern.Decimal
