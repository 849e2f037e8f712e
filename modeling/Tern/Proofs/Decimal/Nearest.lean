import Mathlib.Algebra.Order.Field.Power
import Mathlib.Data.Nat.Cast.Order.Field
import Mathlib.Data.Rat.Cast.Order
import Mathlib.Tactic.FieldSimp
import Mathlib.Tactic.Linarith
import Mathlib.Tactic.NormNum
import Mathlib.Tactic.Positivity
import Mathlib.Tactic.Ring
import Tern.Decimal.Nearest
import Tern.Proofs.Decimal.Numeral

/-!
# Rounding to the nearest double

Every positive double is a mantissa at some place, counted from the place of the least double.
The numbers that round to it are those within half of the way to its neighbours. Which place the
last bit of the nearest double has can be read off the powers of two around a number; the only
numbers that end up at another place than the double they round to lie just below a power of two,
and there the mantissa that is rounded up carries over.

* `Binary.Rounds`: the numbers that round to a double;
* `Binary.nearestBits_of_rounds`: the nearest double is the one to which a number rounds;
* `Decimal.magnitudeBits_of_rounds`: the same for the absolute value of a decimal.
-/

namespace Tern

theorem roundDiv_eq {n d m : Nat} (hd : 0 < d) (hLow : 2 * m * d ≤ 2 * n + d)
    (hHigh : 2 * n ≤ 2 * m * d + d)
    (hTie : m % 2 = 1 → 2 * m * d < 2 * n + d ∧ 2 * n < 2 * m * d + d) : roundDiv n d = m := by
  have hSplit : d * (n / d) + n % d = n := Nat.div_add_mod n d
  have hRest : n % d < d := Nat.mod_lt n hd
  unfold roundDiv
  dsimp only
  generalize n / d = q at hSplit ⊢
  generalize n % d = r at hSplit hRest ⊢
  subst hSplit
  have hAbove : m ≤ q + 1 := by
    by_contra hFar
    have hMul : (q + 2) * d ≤ m * d := Nat.mul_le_mul_right d (by omega)
    nlinarith
  have hBelow : q ≤ m := by
    by_contra hFar
    have hMul : (m + 1) * d ≤ q * d := Nat.mul_le_mul_right d (by omega)
    nlinarith
  have hComm : d * q = q * d := Nat.mul_comm d q
  rcases Nat.lt_or_ge q m with hLess | hSame
  · obtain rfl : m = q + 1 := by omega
    have hHalf : d ≤ 2 * r := by nlinarith
    by_cases hNear : d < 2 * r
    · rw [if_neg (by omega), if_pos hNear]
    · have hEven : (q + 1) % 2 = 0 := by
        by_contra hOdd
        have := (hTie (by omega)).1
        nlinarith
      rw [if_neg (by omega), if_neg hNear]
      omega
  · obtain rfl : m = q := by omega
    have hHalf : 2 * r ≤ d := by nlinarith
    by_cases hNear : 2 * r < d
    · rw [if_pos hNear]
    · have hEven : m % 2 = 0 := by
        by_contra hOdd
        have := (hTie (by omega)).2
        nlinarith
      rw [if_neg hNear, if_neg (by omega), hEven, Nat.add_zero]

/-- Rounding is not below cutting off. -/
theorem le_roundDiv (n d : Nat) : n / d ≤ roundDiv n d := by
  unfold roundDiv
  dsimp only
  split_ifs <;> omega

namespace Binary

/-- A number, in units of the least double, that rounds to `mantissa · 2 ^ place` units. Half of
the way to the neighbours is rounded away, which below a power of two is a quarter of the gap above
it; the ends belong to it if the mantissa is even. -/
structure Rounds (mantissa place : Nat) (u : ℚ) : Prop where
  low : (mantissa - (if mantissa = 2 ^ 52 ∧ 0 < place then 1 / 4 else 1 / 2)) * 2 ^ place ≤ u
  high : u ≤ (mantissa + 1 / 2) * 2 ^ place
  ends : mantissa % 2 = 1 → (mantissa - 1 / 2) * 2 ^ place < u ∧ u < (mantissa + 1 / 2) * 2 ^ place

/-- The mantissas and places of the finite doubles other than zero. -/
structure Fits (mantissa place : Nat) : Prop where
  pos : 0 < mantissa
  bits : mantissa < 2 ^ 53
  normal : 2 ^ 52 ≤ mantissa ∨ place = 0
  finite : place ≤ 2045

variable {m j : Nat} {u : ℚ}

theorem pow_le_div {n d t : Nat} (hd : 0 < d) (hu : u = n / d) :
    2 ^ t ≤ n / d ↔ (2 : ℚ) ^ t ≤ u := by
  have hPos : (0 : ℚ) < d := by exact_mod_cast hd
  rw [hu, Nat.le_div_iff_mul_le hd, le_div_iff₀ hPos]
  exact_mod_cast Iff.rfl

/-- How many bits are dropped can be told from the powers of two around a number. -/
theorem dropped_eq {n d t : Nat} (hd : 0 < d) (hu : u = n / d) (hLow : t = 0 ∨ 2 ^ (t + 52) ≤ u)
    (hHigh : u < 2 ^ (t + 53)) : Nat.log2 (n / d) - 52 = t := by
  have hBelow : n / d < 2 ^ (t + 53) := by
    by_contra hNot
    have := (pow_le_div hd hu).mp (Nat.le_of_not_lt hNot)
    linarith
  rcases Nat.eq_zero_or_pos (n / d) with hZero | hPos
  · rw [hZero, Nat.log2_zero]
    rcases hLow with rfl | hLow
    · rfl
    · have := (pow_le_div hd hu).mpr hLow
      have : 0 < 2 ^ (t + 52) := Nat.two_pow_pos _
      omega
  · have hUpper : Nat.log2 (n / d) < t + 53 := (Nat.log2_lt (by omega)).mpr hBelow
    rcases hLow with rfl | hLow
    · omega
    · have hLower : t + 52 ≤ Nat.log2 (n / d) :=
        (Nat.le_log2 (by omega)).mpr ((pow_le_div hd hu).mpr hLow)
      omega

/-- A quotient is rounded to the whole number within a half of it. -/
theorem roundDiv_of_near {n d t : Nat} (hd : 0 < d) (hu : u = n / d)
    (hLow : ((m : ℚ) - 1 / 2) * 2 ^ t ≤ u) (hHigh : u ≤ (m + 1 / 2) * 2 ^ t)
    (hEnds : m % 2 = 1 → ((m : ℚ) - 1 / 2) * 2 ^ t < u ∧ u < (m + 1 / 2) * 2 ^ t) :
    roundDiv n (d * 2 ^ t) = m := by
  have hPos : (0 : ℚ) < d := by exact_mod_cast hd
  have hBack : u * d = n := by rw [hu, div_mul_cancel₀ _ hPos.ne']
  have hScale : ∀ {a : ℚ}, (a ≤ u ↔ a * d ≤ n) ∧ (u ≤ a ↔ n ≤ a * d) ∧ (a < u ↔ a * d < n) ∧
      (u < a ↔ n < a * d) := by
    intro a
    rw [← hBack]
    exact ⟨(mul_le_mul_iff_left₀ hPos).symm, (mul_le_mul_iff_left₀ hPos).symm,
      (mul_lt_mul_iff_left₀ hPos).symm, (mul_lt_mul_iff_left₀ hPos).symm⟩
  refine roundDiv_eq (Nat.mul_pos hd (Nat.two_pow_pos t)) ?_ ?_ fun hOdd => ⟨?_, ?_⟩
  · have := hScale.1.mp hLow
    have hNat : ((2 * m * (d * 2 ^ t) : ℕ) : ℚ) ≤ (2 * n + d * 2 ^ t : ℕ) := by
      push_cast
      linarith
    exact_mod_cast hNat
  · have := hScale.2.1.mp hHigh
    have hNat : ((2 * n : ℕ) : ℚ) ≤ (2 * m * (d * 2 ^ t) + d * 2 ^ t : ℕ) := by
      push_cast
      linarith
    exact_mod_cast hNat
  · have := hScale.2.2.1.mp (hEnds hOdd).1
    have hNat : ((2 * m * (d * 2 ^ t) : ℕ) : ℚ) < (2 * n + d * 2 ^ t : ℕ) := by
      push_cast
      linarith
    exact_mod_cast hNat
  · have := hScale.2.2.2.mp (hEnds hOdd).2
    have hNat : ((2 * n : ℕ) : ℚ) < (2 * m * (d * 2 ^ t) + d * 2 ^ t : ℕ) := by
      push_cast
      linarith
    exact_mod_cast hNat

theorem Fits.bits_lt (h : Fits m j) : j * 2 ^ 52 + m < infinityBits := by
  have hInfinity : infinityBits = 2047 * 2 ^ 52 := rfl
  have := h.finite
  have := h.bits
  omega

/-- The nearest double has the bits of a place and a mantissa, rounded up it may be, if its last bit
has that place and rounding gives that mantissa. -/
theorem nearestBits_eq {n d k r : Nat} (hFits : Fits m j)
    (hSame : k * 2 ^ 52 + r = j * 2 ^ 52 + m) (hDropped : Nat.log2 (n * unit / d) - 52 = k)
    (hRound : roundDiv (n * unit) (d * 2 ^ k) = r) : nearestBits n d = j * 2 ^ 52 + m := by
  unfold nearestBits
  simp only [Nat.pow_eq]
  rw [hDropped, hRound, hSame]
  exact Nat.min_eq_left hFits.bits_lt.le

/-- A number that rounds up to a power of two is measured one place further down, where the
next lower double ends. -/
theorem nearestBits_of_narrow {n d k : Nat} (hd : 0 < d) (hu : u = (n * unit : ℕ) / d)
    (hFits : Fits (2 ^ 52) (k + 1)) (h : Rounds (2 ^ 52) (k + 1) u)
    (hLess : u < 2 ^ 52 * 2 ^ (k + 1)) : nearestBits n d = (k + 1) * 2 ^ 52 + 2 ^ 52 := by
  have hLow : ((2 : ℚ) ^ 52 - 1 / 4) * (2 ^ k * 2) ≤ u := by
    have hLow := h.low
    rw [if_pos ⟨rfl, Nat.succ_pos k⟩, pow_succ] at hLow
    exact_mod_cast hLow
  rw [pow_succ (2 : ℚ) k] at hLess
  have hDouble : (2 : ℚ) ^ 53 = 2 ^ 52 * 2 := pow_succ 2 52
  have hOne : (1 : ℚ) ≤ 2 ^ 52 := one_le_pow₀ (by norm_num)
  have hUnit : (2 : ℚ) ^ k * 1 ≤ 2 ^ k * 2 ^ 52 := mul_le_mul_of_nonneg_left hOne (by positivity)
  have hDropped : Nat.log2 (n * unit / d) - 52 = k := by
    refine dropped_eq hd hu (.inr ?_) ?_
    · rw [pow_add]
      linarith
    · rw [pow_add, hDouble]
      linarith
  refine nearestBits_eq (r := 2 ^ 53) hFits (by omega) hDropped
    (roundDiv_of_near hd hu ?_ ?_ (by simp))
  · rw [Nat.cast_pow, Nat.cast_ofNat, hDouble]
    linarith
  · rw [Nat.cast_pow, Nat.cast_ofNat, hDouble]
    linarith

/-- Any other number that rounds to a double is measured at the place of that double. -/
theorem nearestBits_of_wide {n d : Nat} (hd : 0 < d) (hu : u = (n * unit : ℕ) / d)
    (hFits : Fits m j) (h : Rounds m j u)
    (hWide : m = 2 ^ 52 → 0 < j → 2 ^ 52 * 2 ^ j ≤ u) : nearestBits n d = j * 2 ^ 52 + m := by
  have hScale : (0 : ℚ) < 2 ^ j := by positivity
  have hBits : (m : ℚ) + 1 ≤ 2 ^ 53 := by exact_mod_cast hFits.bits
  have hHigh : u < 2 ^ (j + 53) := by
    have : u < 2 ^ 53 * 2 ^ j := lt_of_le_of_lt h.high (by nlinarith)
    rwa [Nat.add_comm j 53, pow_add]
  have hLow : ((m : ℚ) - 1 / 2) * 2 ^ j ≤ u := by
    refine le_trans ?_ h.low
    refine mul_le_mul_of_nonneg_right ?_ hScale.le
    split <;> linarith
  have hPlace : j = 0 ∨ (2 : ℚ) ^ (j + 52) ≤ u := by
    refine (Nat.eq_zero_or_pos j).imp_right fun hPos => ?_
    have hNormal : 2 ^ 52 ≤ m := hFits.normal.resolve_right hPos.ne'
    rw [pow_add, mul_comm]
    rcases hNormal.lt_or_eq with hMore | hSame
    · have : (2 : ℚ) ^ 52 + 1 ≤ m := by exact_mod_cast hMore
      nlinarith
    · exact hWide hSame.symm hPos
  exact nearestBits_eq hFits rfl (dropped_eq hd hu hPlace hHigh)
    (roundDiv_of_near hd hu hLow h.high h.ends)

/-- The double to which a number rounds is the nearest to it. -/
theorem nearestBits_of_rounds {n d : Nat} (hd : 0 < d) (hu : u = (n * unit : ℕ) / d)
    (hFits : Fits m j) (h : Rounds m j u) : nearestBits n d = j * 2 ^ 52 + m := by
  by_cases hNarrow : m = 2 ^ 52 ∧ 0 < j ∧ u < 2 ^ 52 * 2 ^ j
  · obtain ⟨rfl, hPlace, hLess⟩ := hNarrow
    obtain ⟨k, rfl⟩ : ∃ k, j = k + 1 := ⟨j - 1, by omega⟩
    exact nearestBits_of_narrow hd hu hFits h hLess
  · exact nearestBits_of_wide hd hu hFits h fun hm hPlace =>
      not_lt.mp fun hLess => hNarrow ⟨hm, hPlace, hLess⟩

theorem cast_two_pow (k : ℕ) : ((Nat.pow 2 k : ℕ) : ℚ) = 2 ^ k :=
  Nat.cast_pow 2 k

theorem unit_cast : (unit : ℚ) = 2 ^ 1074 := cast_two_pow 1074

theorem unit_pos : (0 : ℚ) < unit := by
  rw [unit_cast]
  positivity

theorem Rounds.half_le (h : Rounds m j u) (hFits : Fits m j) : 1 / 2 ≤ u := by
  have hOne : (1 : ℚ) ≤ m := by exact_mod_cast hFits.pos
  have hScale : (1 : ℚ) ≤ 2 ^ j := one_le_pow₀ (by norm_num)
  refine le_trans ?_ h.low
  split <;> nlinarith

theorem Rounds.lt_pow (h : Rounds m j u) (hFits : Fits m j) : u < 2 ^ 2098 := by
  have hBits : (m : ℚ) + 1 ≤ 2 ^ 53 := by exact_mod_cast hFits.bits
  have hScale : (0 : ℚ) < 2 ^ j := by positivity
  calc u ≤ (m + 1 / 2) * 2 ^ j := h.high
    _ < 2 ^ 53 * 2 ^ j := mul_lt_mul_of_pos_right (by linarith) hScale
    _ = 2 ^ (53 + j) := (pow_add 2 53 j).symm
    _ ≤ 2 ^ 2098 := pow_le_pow_right₀ (by norm_num) (by have := hFits.finite; omega)

end Binary

namespace Decimal

open Binary

/-- The absolute value. -/
def magnitude (d : Decimal) : ℚ := d.coefficient * 10 ^ d.exponent

theorem magnitude_normalize (d : Decimal) : d.normalize.magnitude = d.magnitude := by
  obtain ⟨negative, c, e⟩ := d
  rcases Nat.eq_zero_or_pos c with rfl | hPos
  · simp [normalize, magnitude]
  · obtain ⟨c, k, hc, rfl⟩ := exists_strip c hPos
    rw [normalize_mul_pow hc]
    simp only [magnitude]
    push_cast
    rw [zpow_add₀ (by norm_num), zpow_natCast]
    ring

section

variable {negative : Bool} {c k m j : Nat} {d : Decimal}

theorem magnitude_natCast : magnitude ⟨negative, c, k⟩ = (c * 10 ^ k : ℕ) := by
  simp [magnitude]

theorem magnitude_neg : magnitude ⟨negative, c, -(k : ℤ)⟩ = c / 10 ^ k := by
  simp [magnitude, div_eq_mul_inv]

theorem eight_pow_le (k : Nat) : (2 : ℚ) ^ (3 * k) ≤ 10 ^ k := by
  rw [pow_mul]
  exact pow_le_pow_left₀ (by norm_num) (by norm_num) k

theorem coefficient_pos_of_rounds (hFits : Fits m j) (h : Rounds m j (d.magnitude * unit)) :
    0 < d.coefficient := by
  by_contra hNot
  have hCoefficient : d.coefficient = 0 := by omega
  have hHalf := h.half_le hFits
  rw [magnitude, hCoefficient, Nat.cast_zero, zero_mul, zero_mul] at hHalf
  norm_num at hHalf

/-- A number that rounds to a double is not taken for one that is too large. -/
theorem bits_le_of_rounds (hc : 0 < c) (hFits : Fits m j)
    (h : Rounds m j (magnitude ⟨negative, c, k⟩ * unit)) : Nat.log2 c + 3 * k ≤ 1100 := by
  by_contra hFar
  have hLower : (2 : ℚ) ^ Nat.log2 c ≤ c := by exact_mod_cast Nat.log2_self_le hc.ne'
  have hTooLarge : (2 : ℚ) ^ 2098 ≤ magnitude ⟨negative, c, k⟩ * unit := by
    calc (2 : ℚ) ^ 2098 ≤ 2 ^ (Nat.log2 c + 3 * k + 1074) :=
          pow_le_pow_right₀ (by norm_num) (by omega)
      _ = 2 ^ Nat.log2 c * 2 ^ (3 * k) * 2 ^ 1074 := by rw [pow_add, pow_add]
      _ ≤ c * 10 ^ k * 2 ^ 1074 := by
          refine mul_le_mul_of_nonneg_right ?_ (by positivity)
          exact mul_le_mul hLower (eight_pow_le k) (by positivity) (by positivity)
      _ = magnitude ⟨negative, c, k⟩ * unit := by
          rw [magnitude_natCast, unit_cast, Nat.cast_mul, Nat.cast_pow, Nat.cast_ofNat]
  exact absurd (h.lt_pow hFits) (not_lt.mpr hTooLarge)

/-- A number that rounds to a double is not taken for one that is too small. -/
theorem le_bits_of_rounds (hFits : Fits m j)
    (h : Rounds m j (magnitude ⟨negative, c, -(k : ℤ)⟩ * unit)) :
    3 * k ≤ Nat.log2 c + 1100 := by
  by_contra hFar
  have hUpper : (c : ℚ) < 2 ^ (Nat.log2 c + 1) := by exact_mod_cast Nat.lt_log2_self
  have hSmall : (c : ℚ) * 2 ^ 1100 ≤ 10 ^ k := by
    calc (c : ℚ) * 2 ^ 1100 ≤ 2 ^ (Nat.log2 c + 1) * 2 ^ 1100 :=
          mul_le_mul_of_nonneg_right hUpper.le (by positivity)
      _ = 2 ^ (Nat.log2 c + 1 + 1100) := (pow_add _ _ _).symm
      _ ≤ 2 ^ (3 * k) := pow_le_pow_right₀ (by norm_num) (by omega)
      _ ≤ 10 ^ k := eight_pow_le k
  have hTen : (0 : ℚ) < 10 ^ k := by positivity
  have hBound : magnitude ⟨negative, c, -(k : ℤ)⟩ * 2 ^ 1100 ≤ 1 := by
    rw [magnitude_neg, div_mul_eq_mul_div, div_le_one hTen]
    exact hSmall
  have hHalf := h.half_le hFits
  rw [unit_cast] at hHalf
  have hSplit : (2 : ℚ) ^ 1100 = 2 ^ 1074 * 2 ^ 26 := (pow_add 2 1074 26)
  rw [hSplit, ← mul_assoc] at hBound
  generalize magnitude ⟨negative, c, -(k : ℤ)⟩ * 2 ^ 1074 = v at hHalf hBound
  linarith

/-- A decimal rounds to the double to which its absolute value rounds. -/
theorem magnitudeBits_of_rounds (hFits : Fits m j) (h : Rounds m j (d.magnitude * unit)) :
    d.magnitudeBits = j * 2 ^ 52 + m := by
  obtain ⟨negative, c, e⟩ := d
  have hPos : 0 < c := coefficient_pos_of_rounds hFits h
  unfold magnitudeBits
  simp only [if_neg hPos.ne', Nat.pow_eq]
  by_cases hSign : 0 ≤ e
  · obtain ⟨k, rfl⟩ := Int.eq_ofNat_of_zero_le hSign
    have hNear := bits_le_of_rounds hPos hFits h
    rw [if_pos hSign, if_neg (by omega), Int.toNat_natCast]
    refine nearestBits_of_rounds Nat.one_pos ?_ hFits h
    rw [magnitude_natCast, Nat.cast_mul _ unit, Nat.cast_one, div_one]
  · obtain ⟨k, rfl⟩ : ∃ k : ℕ, e = -(k : ℤ) := ⟨e.natAbs, by omega⟩
    have hNear := le_bits_of_rounds hFits h
    rw [if_neg hSign, if_neg (by omega)]
    refine nearestBits_of_rounds (Nat.pow_pos (by norm_num)) ?_ hFits h
    rw [magnitude_neg, Int.natAbs_neg, Int.natAbs_natCast, Nat.cast_mul, Nat.cast_pow,
      Nat.cast_ofNat, div_mul_eq_mul_div]

end

end Decimal

end Tern
