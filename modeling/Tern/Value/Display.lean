import Tern.Value.Heap

/-!
# Values as text

What `print`, `str` and `+` make of a value. An array that is met again inside itself is cut
to `[...]`; an array that occurs several times side by side is written each time.

Arrays may nest deeper than there is room for. `Heap.display?` is given the depth it may go to
and fails beyond it; without a limit it never fails, because the arrays open at any time are
different ones.
-/

namespace Tern.Heap

/-- The text of a value inside the arrays of `path`, with at most `room` arrays further in. -/
def displayIn (h : Heap) : Nat → List ArrayId → Value → Option String
  | _, _, .null => some "null"
  | _, _, .bool b => some (if b then "true" else "false")
  | _, _, .number x => some (Number.text x)
  | _, _, .nan _ => some "NaN"
  | _, _, .string s => some s
  | _, _, .func id => some ("<func " ++ h.funcName id ++ ">")
  | _, _, .bound id _ => some ("<func " ++ h.funcName id ++ ">")
  | _, _, .native f => some ("<native " ++ f.name ++ ">")
  | _, _, .cls c => some ("<class " ++ c.name ++ ">")
  | _, _, .object id => some ("<" ++ (h.object id).cls.name ++ " instance>")
  | room, path, .array id =>
    if path.contains id then some "[...]"
    else
      match room with
      | 0 => none
      | room + 1 =>
        match (h.elements id).toList.mapM (displayIn h room (id :: path)) with
        | some texts => some ("[" ++ ", ".intercalate texts ++ "]")
        | none => none

/-- A depth that no value of the heap exceeds. -/
def unbounded (h : Heap) : Nat := h.arrays.size + 1

/-- The text of a value, if it does not nest deeper than `limit`. -/
def display? (h : Heap) (limit : Option Nat) (v : Value) : Option String :=
  h.displayIn (limit.getD h.unbounded) [] v

end Tern.Heap
