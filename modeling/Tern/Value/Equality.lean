import Tern.Value.Heap

/-!
# Equality of values

What `==` compares. Values of different types are never equal. Null, truth values, numbers and
strings are compared by what they are, arrays element by element and everything else by which
one it is. A pair of arrays that has been met before counts as equal, so comparing arrays that
contain themselves comes to an end.

* `Heap.equal?` compares within a depth, as `Heap.display?` does.
-/

namespace Tern

namespace Value

/-- Equality of values that are not two different arrays. -/
def same : Value → Value → Bool
  | null, null => true
  | bool a, bool b => a == b
  | number x, number y => x == y
  | nan i, nan j => i == j
  | string s, string t => s == t
  | array i, array j => i == j
  | func i, func j => i == j
  | bound f i, bound g j => f == g && i == j
  | native f, native g => f.name == g.name
  | cls c, cls d => c.decl.id == d.decl.id
  | object i, object j => i == j
  | _, _ => false

end Value

namespace Heap

/-- The pairs of arrays met so far. -/
abbrev Pairs := List (ArrayId × ArrayId)

/-- Compares elements one by one until two differ. -/
def equalAll (compare : Pairs → Value → Value → Option (Bool × Pairs)) :
    Pairs → List Value → List Value → Option (Bool × Pairs)
  | met, a :: as, b :: bs =>
    match compare met a b with
    | some (true, met) => equalAll compare met as bs
    | other => other
  | met, [], [] => some (true, met)
  | met, _, _ => some (false, met)

/-- Compares two values, with at most `room` arrays further in. -/
def equalIn (h : Heap) : Nat → Pairs → Value → Value → Option (Bool × Pairs)
  | room, met, .array i, .array j =>
    if i = j then some (true, met)
    else if (h.elements i).size ≠ (h.elements j).size then some (false, met)
    else if met.any (fun p => p.1 == i && p.2 == j) then some (true, met)
    else
      match room with
      | 0 => none
      | room + 1 =>
        equalAll (equalIn h room) ((i, j) :: met) (h.elements i).toList (h.elements j).toList
  | _, met, a, b => some (a.same b, met)

/-- Whether two values are equal, if deciding it takes no more than `limit` levels. -/
def equal? (h : Heap) (limit : Option Nat) (a b : Value) : Option Bool :=
  (h.equalIn (limit.getD (h.arrays.size * h.arrays.size + 1)) [] a b).map (·.1)

end Heap

end Tern
