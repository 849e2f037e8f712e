/-!
# Tables

Association lists in insertion order: setting a key that is there keeps its place. The keys of a
`Table` are names; setting does not depend on what keys are.

* `Table.set` sets a key; the lemmas say what looking up gives afterwards.
-/

namespace Tern

/-- Values under names, in the order in which the names first came. -/
abbrev Table (α : Type) := List (String × α)

namespace Table

variable {κ α : Type} [DecidableEq κ]

/-- Sets a key: in its place if it is there already, else at the end. -/
def set (key : κ) (value : α) : List (κ × α) → List (κ × α)
  | [] => [(key, value)]
  | (k, v) :: rest => if k = key then (k, value) :: rest else (k, v) :: set key value rest

/-- The table of entries given one after another. -/
def ofList (entries : List (κ × α)) : List (κ × α) :=
  entries.foldl (fun t e => set e.1 e.2 t) []

theorem lookup_set_self (key : String) (value : α) (t : Table α) :
    (set key value t).lookup key = some value := by
  induction t with
  | nil => simp [set]
  | cons e rest ih =>
    obtain ⟨k, v⟩ := e
    by_cases h : k = key
    · simp [set, h]
    · have h' : (key == k) = false := by simpa using fun e => h e.symm
      simp [set, h, List.lookup_cons, h', ih]

theorem lookup_set_ne {key other : String} (h : other ≠ key) (value : α) (t : Table α) :
    (set key value t).lookup other = t.lookup other := by
  have h' : (other == key) = false := by simpa using h
  induction t with
  | nil => simp [set, List.lookup_cons, h']
  | cons e rest ih =>
    obtain ⟨k, v⟩ := e
    by_cases hk : k = key
    · subst hk
      simp [set, List.lookup_cons, h']
    · simp [set, hk, List.lookup_cons, ih]

end Table

end Tern
