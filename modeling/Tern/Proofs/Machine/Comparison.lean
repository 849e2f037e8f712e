import Tern.Proofs.Machine.Equality
import Tern.Proofs.Text.Units

/-!
# Comparing strings in programs

What the relational operators answer when both sides are strings. They answer a truth value and
change nothing, whatever the state is. Their answers are those of one order, in which `==` means that
two strings are the same: the order of the code units, which is total.

* `Eval.Holds`: an operator answers `true` on two strings;
* `Eval.comparison?`: the answers of all these operators;
* `Eval.holds_total_order`: they are those of a total order.
-/

namespace Tern.Eval

open Text (before codeUnits)

variable {cfg : Settings} {depth : Nat} {m : Machine} {op : BinaryOp} {a b c : String} {r : Bool}

/-- The operator answers `true` on two strings, and nothing changes. -/
def Holds (cfg : Settings) (depth : Nat) (m : Machine) (op : BinaryOp) (a b : String) : Prop :=
  binary cfg depth op (.string a) (.string b) m = .ok (.bool true) m

/-- What `==` and the order operators answer on strings. -/
def comparison? (op : BinaryOp) (a b : String) : Option Bool :=
  if op = .equal then some (a == b) else compareStrings op a b

theorem exists_comparison (h : op ∈ [.less, .lessEqual, .greater, .greaterEqual, .equal])
    (a b : String) : ∃ r, comparison? op a b = some r := by
  simp only [List.mem_cons, List.not_mem_nil, or_false] at h
  rcases h with rfl | rfl | rfl | rfl | rfl <;> exact ⟨_, rfl⟩

theorem equates_strings (cfg : Settings) (depth : Nat) (m : Machine) (a b : String) :
    Equates cfg depth m (.string a) (.string b) (a == b) := by
  have hString : ∀ i, Value.string a ≠ .array i := nofun
  rw [equates_iff, Heap.equal?, Heap.equalIn_of_not_array hString]
  rfl

theorem binary_strings (h : comparison? op a b = some r) (cfg : Settings) (depth : Nat)
    (m : Machine) : binary cfg depth op (.string a) (.string b) m = .ok (.bool r) m := by
  cases op
  case equal =>
    cases h
    exact (equates_strings cfg depth m a b).equal
  case less | lessEqual | greater | greaterEqual =>
    cases h
    rfl
  all_goals cases h

theorem holds_iff (h : comparison? op a b = some r) : Holds cfg depth m op a b ↔ r = true := by
  rw [Holds, binary_strings h]
  constructor
  · intro hSame
    cases hSame
    rfl
  · rintro rfl
    rfl

theorem holds_less : Holds cfg depth m .less a b ↔ before a b = true := holds_iff rfl

theorem holds_greater : Holds cfg depth m .greater a b ↔ before b a = true := holds_iff rfl

theorem holds_equal : Holds cfg depth m .equal a b ↔ a = b := (holds_iff rfl).trans beq_iff_eq

theorem holds_lessEqual : Holds cfg depth m .lessEqual a b ↔ before a b = true ∨ a = b := by
  rw [holds_iff rfl, Bool.not_eq_true', Text.before_eq_false_iff]

theorem holds_greaterEqual : Holds cfg depth m .greaterEqual a b ↔ before b a = true ∨ b = a := by
  rw [holds_iff rfl, Bool.not_eq_true', Text.before_eq_false_iff]

/-- Of two strings one is less than the other or they are equal, and only one of these holds. -/
theorem existsUnique_holds (cfg : Settings) (depth : Nat) (m : Machine) (a b : String) :
    ∃! op, op ∈ [BinaryOp.less, .equal, .greater] ∧ Holds cfg depth m op a b := by
  have hSelf : ∀ {c : String}, ¬before c c = true := fun h => Text.before_asymm h h
  simp only [List.mem_cons, List.not_mem_nil, or_false]
  rcases Text.before_trichotomy a b with hLess | rfl | hGreater
  · refine ⟨.less, ⟨.inl rfl, holds_less.mpr hLess⟩, ?_⟩
    rintro op ⟨rfl | rfl | rfl, hHolds⟩
    · rfl
    · obtain rfl := holds_equal.mp hHolds
      exact absurd hLess hSelf
    · exact absurd (holds_greater.mp hHolds) (Text.before_asymm hLess)
  · refine ⟨.equal, ⟨.inr (.inl rfl), holds_equal.mpr rfl⟩, ?_⟩
    rintro op ⟨rfl | rfl | rfl, hHolds⟩
    · exact absurd (holds_less.mp hHolds) hSelf
    · rfl
    · exact absurd (holds_greater.mp hHolds) hSelf
  · refine ⟨.greater, ⟨.inr (.inr rfl), holds_greater.mpr hGreater⟩, ?_⟩
    rintro op ⟨rfl | rfl | rfl, hHolds⟩
    · exact absurd (holds_less.mp hHolds) (Text.before_asymm hGreater)
    · obtain rfl := holds_equal.mp hHolds
      exact absurd hGreater hSelf
    · rfl

/-- On strings the relational operators answer, and their answers are those of a total order. `<`
compares code units and `==` whole strings; exactly one of `<`, `==` and `>` holds; `<=` is `<` or
`==`, and `>=` is `<=` the other way round; `<` is transitive. Where no character is above U+FFFF
it is the order of the characters. -/
theorem holds_total_order (cfg : Settings) (depth : Nat) (m : Machine) :
    (∀ op ∈ [BinaryOp.less, .lessEqual, .greater, .greaterEqual, .equal], ∀ a b : String,
      ∃ r, binary cfg depth op (.string a) (.string b) m = .ok (.bool r) m) ∧
    (∀ a b, (Holds cfg depth m .less a b ↔ codeUnits a < codeUnits b) ∧
      (Holds cfg depth m .equal a b ↔ a = b)) ∧
    (∀ a b, ∃! op, op ∈ [BinaryOp.less, .equal, .greater] ∧ Holds cfg depth m op a b) ∧
    (∀ a b, Holds cfg depth m .lessEqual a b ↔
      Holds cfg depth m .less a b ∨ Holds cfg depth m .equal a b) ∧
    (∀ a b, Holds cfg depth m .greaterEqual a b ↔ Holds cfg depth m .lessEqual b a) ∧
    (∀ a b c, Holds cfg depth m .less a b → Holds cfg depth m .less b c →
      Holds cfg depth m .less a c) ∧
    ∀ a b : String, (∀ x ∈ a.toList ++ b.toList, x.toNat ≤ 0xFFFF) →
      (Holds cfg depth m .less a b ↔ a < b) := by
  refine ⟨fun op hOp a b => ?answers,
    fun a b => ⟨holds_less.trans Text.before_iff, holds_equal⟩, existsUnique_holds cfg depth m,
    fun a b => ?lessEqual, fun a b => ?greaterEqual, fun a b c hab hbc => ?transitive,
    fun a b hSingle => ?characters⟩
  case answers =>
    obtain ⟨r, hAnswer⟩ := exists_comparison hOp a b
    exact ⟨r, binary_strings hAnswer cfg depth m⟩
  case lessEqual => rw [holds_lessEqual, holds_less, holds_equal]
  case greaterEqual => rw [holds_greaterEqual, holds_lessEqual]
  case transitive =>
    exact holds_less.mpr (Text.before_trans (holds_less.mp hab) (holds_less.mp hbc))
  case characters =>
    obtain ⟨ha, hb⟩ := List.forall_mem_append.mp hSingle
    exact holds_less.trans (Text.before_iff_lt ha hb)

/-- A pair of surrogates stands between the letters and the last characters of one unit. -/
theorem holds_total_order_surrogates :
    (∃ r, binary roomy 0 .greaterEqual (.string "😀") (.string "\uE000") knots =
      .ok (.bool r) knots) ∧
    Holds roomy 0 knots .less "a" "a😀" ∧ Holds roomy 0 knots .less "a😀" "a\uE000" ∧
    Holds roomy 0 knots .less "a" "a\uE000" ∧
    (Holds roomy 0 knots .less "Z\uE000" "Za" ↔ "Z\uE000" < "Za") := by
  obtain ⟨answers, -, -, -, -, transitive, characters⟩ := holds_total_order roomy 0 knots
  have hLetter : Holds roomy 0 knots .less "a" "a😀" := holds_less.mpr (by decide)
  have hPair : Holds roomy 0 knots .less "a😀" "a\uE000" := holds_less.mpr (by decide)
  have hSingle : ("Z\uE000".toList ++ "Za".toList).all (·.toNat ≤ 0xFFFF) = true := by decide
  refine ⟨answers _ (by decide) _ _, hLetter, hPair, transitive _ _ _ hLetter hPair,
    characters _ _ fun x hx => ?_⟩
  exact of_decide_eq_true (List.all_eq_true.mp hSingle x hx)

end Tern.Eval
