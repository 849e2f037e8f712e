import Tern.Text.Units

/-!
# Places in a source text

A `Position` is a line and a column, both counted from one; columns count code units and a
line feed ends a line. A `Span` runs from a start to an end.

* `Position.after` is where one stands after reading a text.
-/

namespace Tern

/-- A line and a column, both counted from one. -/
structure Position where
  line : Nat
  column : Nat
deriving DecidableEq, Repr, Inhabited

namespace Position

/-- The beginning of a text. -/
def first : Position := ⟨1, 1⟩

/-- The position after one more character. -/
def next (p : Position) (c : Char) : Position :=
  if c = '\n' then ⟨p.line + 1, 1⟩ else ⟨p.line, p.column + Text.units c⟩

/-- The position after more text. -/
def after (p : Position) (cs : List Char) : Position :=
  cs.foldl next p

theorem after_append (p : Position) (a b : List Char) :
    p.after (a ++ b) = (p.after a).after b := by
  simp [after]

end Position

/-- The stretch of source from `start` up to `stop`. -/
structure Span where
  start : Position
  stop : Position
deriving DecidableEq, Repr, Inhabited

end Tern
