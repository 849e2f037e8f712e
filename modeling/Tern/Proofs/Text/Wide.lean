import Tern.Proofs.Text.Units
import Tern.Text.Wide

/-!
# Wide strings are their units

Reading units and spelling out undo each other. So a wide string has one row of units, and rows
that differ make wide strings that differ.

* `Wide.units_lt`: every unit is one of 16 bits;
* `Wide.ofUnits_units`: a wide string is read back from its units;
* `Wide.units_ofUnits`: what is read has the units it was read from.
-/

namespace Tern.Wide

theorem units_lt (w : Wide) : ∀ u ∈ w.units, u < 0x10000 := by
  cases w with
  | text s => exact Text.codeUnits_lt s
  | broken us halved => exact halved.1

theorem ofUnits_units (w : Wide) : ofUnits w.units = w := by
  cases w with
  | text s =>
    have hText : String.ofList (Text.decodeUnits (Text.codeUnits s)) = s := by
      rw [Text.decodeUnits_codeUnits, String.ofList_toList]
    rw [units, ofUnits, dif_neg (fun halved => halved.2 (by rw [hText])), hText]
  | broken us halved => rw [units, ofUnits, dif_pos halved]

theorem units_ofUnits {us : List Nat} (h : ∀ u ∈ us, u < 0x10000) : (ofUnits us).units = us := by
  unfold ofUnits
  split
  · rfl
  · next hText =>
    rw [Text.Halved, not_and, not_not] at hText
    exact hText h

end Tern.Wide
