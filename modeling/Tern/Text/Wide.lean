import Tern.Text.Units

/-!
# Strings that may be broken

A row of code units need not be a text: it may hold half of a surrogate pair. Where such rows are
told apart unit by unit, as the strings of JSON are, a text is not enough. A `Wide` is a text or a
row of units that no text has, so each row has one form.

* `Wide.units` spells a wide string out in units, and `Wide.ofUnits` reads units;
* `Wide.shown` is the text that is shown for it.
-/

namespace Tern

/-- Code units that no text has, some of them being half a pair. -/
def Text.Halved (units : List Nat) : Prop :=
  (∀ u ∈ units, u < 0x10000) ∧ codeUnits (String.ofList (decodeUnits units)) ≠ units

instance (units : List Nat) : Decidable (Text.Halved units) :=
  inferInstanceAs (Decidable (_ ∧ _))

/-- A string of code units: a text, or units that no text has. -/
inductive Wide where
  | text (s : String)
  | broken (units : List Nat) (halved : Text.Halved units)
deriving DecidableEq

namespace Wide

instance : Coe String Wide := ⟨text⟩

/-- The code units of a wide string. -/
def units : Wide → List Nat
  | text s => Text.codeUnits s
  | broken us _ => us

/-- The wide string of code units. -/
def ofUnits (us : List Nat) : Wide :=
  if halved : Text.Halved us then broken us halved
  else text (String.ofList (Text.decodeUnits us))

/-- The text that is shown: half a pair as the replacement character. -/
def shown : Wide → String
  | text s => s
  | broken us _ => String.ofList (Text.decodeUnits us)

@[simp] theorem shown_text (s : String) : (text s).shown = s := rfl

@[simp] theorem text_beq (a b : String) : (text a == text b) = (a == b) := by
  rw [Bool.eq_iff_iff, beq_iff_eq, beq_iff_eq, text.injEq]

end Wide

end Tern
