import Tern.Proofs.Decimal.ReadBack

/-!
# Counts

A line or a column is a number of a document that is whole and positive as a double. Small ones
are recognized without making the double; that is the same, since every whole number below those
with gaps between them is a double, and the nearest double to it is itself.

* `Decimal.toInt_of_small`: a small whole decimal is the double nearest to it;
* `Decimal.toCount_iff`: which decimals are counts;
* `Decimal.toInt_ofNat_iff`: of all whole numbers only a small one itself has it as nearest double.
-/

namespace Tern

namespace Binary

open Float.Model Float.Model.UnpackedFloat in
/-- Bits below those of infinity are the bits of the double made of them. -/
theorem toBits_ofBits {n : UInt64} (hn : n.toNat < infinityBits) :
    (Float.ofBits n).toBits = n := by
  have hBits : (Float.ofBits n).toBits.toBitVec =
      UnpackedFloat.pack Format.binary64 (UnpackedFloat.unpack Format.binary64 n.toBitVec) := rfl
  have hBound : n.toNat < 2047 * 2 ^ 52 := hn
  have hNumber : ¬@isNaNBits Format.binary64 n.toBitVec = true := by
    simp only [isNaNBits, decide_eq_true_eq, not_and]
    intro hExponent
    have h := congrArg BitVec.toNat hExponent
    simp [unpackExponent, Nat.shiftRight_eq_div_pow] at h
    omega
  refine UInt64.toBitVec_inj.mp ?_
  rw [hBits, pack_unpack, if_neg hNumber]

/-- The double with a mantissa at a place, without a sign. -/
theorem ofFloat_ofBits {m j : Nat} (hFits : Fits m j) (hNormal : 2 ^ 52 ≤ m) :
    ofFloat? (Float.ofBits (UInt64.ofNat (j * 2 ^ 52 + m))) = some ⟨false, m, (j : ℤ) - 1074⟩ := by
  have hBits := hFits.bits
  have hFinite := hFits.finite
  have hInfinity : infinityBits = 2047 * 2 ^ 52 := rfl
  have hSame : (UInt64.ofNat (j * 2 ^ 52 + m)).toNat = j * 2 ^ 52 + m := by
    rw [UInt64.toNat_ofNat']
    omega
  unfold ofFloat?
  rw [toBits_ofBits (by omega), hSame]
  simp only [Nat.pow_eq]
  have hBiased : (j * 2 ^ 52 + m) / 2 ^ 52 % 2 ^ 11 = j + 1 := by omega
  have hFraction : (j * 2 ^ 52 + m) % 2 ^ 52 + 2 ^ 52 = m := by omega
  have hPositive : decide (2 ^ 63 ≤ j * 2 ^ 52 + m) = false := by
    rw [decide_eq_false_iff_not]
    omega
  rw [hBiased, if_neg (by omega), if_neg (by omega), hFraction, hPositive]
  simp only [Option.some.injEq, Binary.mk.injEq, true_and]
  omega

/-- A whole number of at most 53 bits, shifted up so that it has all of them. -/
theorem exists_shift {n : Nat} (hPos : 0 < n) (hBound : n < 2 ^ 53) :
    ∃ s ≤ 52, 2 ^ 52 ≤ n * 2 ^ s ∧ n * 2 ^ s < 2 ^ 53 := by
  have hLog : Nat.log2 n < 53 := (Nat.log2_lt hPos.ne').mpr hBound
  have hSum : Nat.log2 n + (52 - Nat.log2 n) = 52 := by omega
  refine ⟨52 - Nat.log2 n, by omega, ?_, ?_⟩
  · calc 2 ^ 52 = 2 ^ Nat.log2 n * 2 ^ (52 - Nat.log2 n) := by rw [← Nat.pow_add, hSum]
      _ ≤ n * 2 ^ (52 - Nat.log2 n) := Nat.mul_le_mul_right _ (Nat.log2_self_le hPos.ne')
  · calc n * 2 ^ (52 - Nat.log2 n) < 2 ^ (Nat.log2 n + 1) * 2 ^ (52 - Nat.log2 n) :=
          Nat.mul_lt_mul_of_pos_right Nat.lt_log2_self (Nat.two_pow_pos _)
      _ = 2 ^ 53 := by
        rw [← Nat.pow_add]
        congr 1
        omega

/-- What was shifted up is a whole number. -/
theorem magnitude_shifted (n s : Nat) :
    (⟨false, n * 2 ^ s, -(s : ℤ)⟩ : Binary).magnitude? = some n := by
  unfold magnitude?
  simp only [Nat.pow_eq]
  split
  · next hNone =>
    obtain rfl : s = 0 := by omega
    simp
  · rw [Int.natAbs_neg, Int.natAbs_natCast, if_pos (Nat.mul_mod_left _ _),
      Nat.mul_div_cancel _ (Nat.two_pow_pos s)]

/-- Whole numbers from those with gaps on have at least the bits of the first of them. -/
theorem nearestBits_of_large {n : Nat} (hn : 2 ^ 53 ≤ n) :
    1076 * 2 ^ 52 ≤ nearestBits n 1 ∧ nearestBits n 1 ≤ infinityBits := by
  have hInfinity : infinityBits = 2047 * 2 ^ 52 := rfl
  have hUnits : 2 ^ (53 + 1074) ≤ n * unit := by
    have hUnit : unit = 2 ^ 1074 := by exact_mod_cast unit_cast
    rw [hUnit, Nat.pow_add]
    exact Nat.mul_le_mul_right _ hn
  have hPos : n * unit ≠ 0 := (Nat.lt_of_lt_of_le (Nat.two_pow_pos _) hUnits).ne'
  have hLog : 53 + 1074 ≤ Nat.log2 (n * unit) := (Nat.le_log2 hPos).mpr hUnits
  have hMantissa : 2 ^ 52 ≤ roundDiv (n * unit) (2 ^ (Nat.log2 (n * unit) - 52)) := by
    refine Nat.le_trans ?_ (le_roundDiv _ _)
    rw [Nat.le_div_iff_mul_le (Nat.two_pow_pos _), ← Nat.pow_add,
      Nat.add_sub_cancel' (by omega)]
    exact Nat.log2_self_le hPos
  unfold nearestBits
  simp only [Nat.pow_eq, Nat.div_one, Nat.one_mul]
  omega

end Binary

namespace Decimal

open Binary

variable {d : Decimal} {n : Nat}

/-- A small whole decimal is the double nearest to it. -/
theorem toInt_of_small (h : d.small? = some n) : Number.toInt? d.toFloat = some (n : ℤ) := by
  obtain ⟨hMagnitude, hLess⟩ := magnitude_of_small h
  have hSign : d.negative = false := by
    by_contra hNegative
    rw [Bool.not_eq_false] at hNegative
    simp [small?, hNegative] at h
  have hBits : d.toFloat = Float.ofBits (UInt64.ofNat d.magnitudeBits) := by
    rw [toFloat, hSign, if_neg Bool.false_ne_true, Nat.zero_add]
  rw [hBits]
  rcases Nat.eq_zero_or_pos n with rfl | hPos
  · have hZero : d.coefficient = 0 := by
      rw [magnitude, Nat.cast_zero] at hMagnitude
      exact_mod_cast (mul_eq_zero.mp hMagnitude).resolve_right (by positivity)
    rw [magnitudeBits, if_pos hZero]
    decide +kernel
  · -- the mantissa is the number itself, shifted up to 53 bits
    obtain ⟨s, hs, hLow, hHigh⟩ := exists_shift hPos hLess
    have hFits : Fits (n * 2 ^ s) (1074 - s) := ⟨by omega, hHigh, .inl hLow, by omega⟩
    have hRounds : Rounds (n * 2 ^ s) (1074 - s) (d.magnitude * unit) := by
      have hValue : d.magnitude * unit = (n * 2 ^ s : ℕ) * 2 ^ (1074 - s) := by
        rw [hMagnitude, unit_cast, Nat.cast_mul, Nat.cast_pow, Nat.cast_ofNat, mul_assoc, ← pow_add]
        congr 2
        omega
      rw [hValue]
      exact rounds_self _ _
    have hExponent : ((1074 - s : ℕ) : ℤ) - 1074 = -(s : ℤ) := by omega
    rw [magnitudeBits_of_rounds hFits hRounds, Number.toInt?, ofFloat_ofBits hFits hLow,
      Option.bind_some, hExponent, Binary.toInt?, magnitude_shifted]
    rfl

/-- A decimal is a count if the double nearest to it is whole and positive. -/
theorem toCount_iff : d.toCount? = some n ↔ Number.toInt? d.toFloat = some (n : ℤ) ∧ 0 < n := by
  unfold toCount?
  cases hSmall : d.small? with
  | some k =>
    have hInt := toInt_of_small hSmall
    dsimp only
    rw [hInt]
    constructor
    · intro h
      split at h
      · cases h
        exact ⟨rfl, ‹_›⟩
      · cases h
    · rintro ⟨hSame, hPos⟩
      obtain rfl : k = n := by exact_mod_cast Option.some.inj hSame
      rw [if_pos hPos]
  | none =>
    dsimp only
    constructor
    · intro h
      split at h
      · next k hk =>
        cases h
        exact ⟨hk, Nat.succ_pos k⟩
      · cases h
    · rintro ⟨hSame, hPos⟩
      obtain ⟨k, rfl⟩ : ∃ k, n = k + 1 := ⟨n - 1, by omega⟩
      rw [hSame]

/-- The bits of the double nearest to a whole number beyond those without gaps. -/
theorem exists_bits_of_large (hn : exactBound ≤ n) : ∃ bits, 1076 * 2 ^ 52 ≤ bits ∧
    bits ≤ infinityBits ∧ (ofNat n).toFloat = Float.ofBits (UInt64.ofNat bits) := by
  have hInfinity : infinityBits = 2047 * 2 ^ 52 := rfl
  obtain ⟨c, e, hc, rfl⟩ := exists_strip n (Nat.lt_of_lt_of_le (by decide) hn)
  have hNormal : ofNat (c * 10 ^ e) = ⟨false, c, e⟩ := by
    rw [ofNat, normalize_mul_pow hc, Int.zero_add]
  have hPos : c ≠ 0 := by
    rintro rfl
    exact hc rfl
  have hBits : magnitudeBits ⟨false, c, e⟩ =
      if 1100 < (Nat.log2 c : ℤ) + 3 * e then infinityBits else nearestBits (c * 10 ^ e) 1 := by
    simp only [magnitudeBits, if_neg hPos, Int.natCast_nonneg, if_true, Int.toNat_natCast,
      Nat.pow_eq]
  obtain ⟨hLow, hHigh⟩ := nearestBits_of_large (n := c * 10 ^ e) hn
  refine ⟨magnitudeBits ⟨false, c, e⟩, ?_, ?_, ?_⟩
  · rw [hBits]
    split_ifs <;> omega
  · rw [hBits]
    split_ifs <;> omega
  · rw [hNormal, toFloat, if_neg Bool.false_ne_true, Nat.zero_add]

/-- A double with such bits, if it is a whole number, is one beyond those without gaps. -/
theorem exactBound_le_of_bits {bits k : Nat} (hLow : 1076 * 2 ^ 52 ≤ bits)
    (hFinite : bits < infinityBits)
    (h : Number.toInt? (Float.ofBits (UInt64.ofNat bits)) = some (k : ℤ)) : exactBound ≤ k := by
  have hInfinity : infinityBits = 2047 * 2 ^ 52 := rfl
  have hSame : (UInt64.ofNat bits).toNat = bits := by
    rw [UInt64.toNat_ofNat']
    omega
  have hBits := toBits_ofBits (n := UInt64.ofNat bits) (by omega)
  obtain ⟨b, hb, hInt⟩ := Option.bind_eq_some_iff.mp h
  obtain ⟨j, hExponent, hMantissa, hNormal, -, hParts⟩ := bits_of_ofFloat hb
  have hSign : b.negative = false := by
    by_contra hNegative
    rw [Bool.not_eq_false] at hNegative
    rw [hBits, hSame, hNegative, if_pos rfl] at hParts
    omega
  rw [hBits, hSame, hSign, if_neg Bool.false_ne_true] at hParts
  obtain ⟨e, he⟩ : ∃ e : ℕ, b.exponent = (e : ℤ) + 1 := ⟨j - 1075, by omega⟩
  have hWhole : b.magnitude? = some (b.mantissa * 2 ^ (e + 1)) := by
    rw [Binary.magnitude?, he, if_pos (by omega)]
    rfl
  have hk : b.mantissa * 2 ^ (e + 1) = k := by
    rw [Binary.toInt?, hWhole, hSign] at hInt
    have hSame : ((b.mantissa * 2 ^ (e + 1) : ℕ) : ℤ) = k := Option.some.inj hInt
    exact_mod_cast hSame
  calc exactBound = 2 ^ 52 * 2 ^ 1 := rfl
    _ ≤ b.mantissa * 2 ^ (e + 1) :=
      Nat.mul_le_mul (by omega) (Nat.pow_le_pow_right (by omega) (Nat.le_add_left 1 e))
    _ = k := hk

/-- A whole number beyond those without gaps is nearest to one of the doubles there. -/
theorem exactBound_le_of_toInt {k : Nat} (hn : exactBound ≤ n)
    (h : Number.toInt? (ofNat n).toFloat = some (k : ℤ)) : exactBound ≤ k := by
  obtain ⟨bits, hLow, hHigh, hFloat⟩ := exists_bits_of_large hn
  rw [hFloat] at h
  rcases Nat.eq_or_lt_of_le hHigh with rfl | hFinite
  · have hNone : Number.toInt? (Float.ofBits (UInt64.ofNat infinityBits)) = none := by
      decide +kernel
    rw [hNone] at h
    cases h
  · exact exactBound_le_of_bits hLow hFinite h

/-- The double nearest to a whole number is a small whole number only if it is that one. -/
theorem toInt_ofNat_iff {k : Nat} (hk : k < exactBound) :
    Number.toInt? (ofNat n).toFloat = some (k : ℤ) ↔ n = k := by
  by_cases hn : n < exactBound
  · rw [toInt_of_small (small_ofNat hn), Option.some.injEq, Nat.cast_inj]
  · refine iff_of_false (fun h => ?_) (by omega)
    exact absurd (exactBound_le_of_toInt (Nat.le_of_not_lt hn) h) (Nat.not_le.mpr hk)

end Decimal

end Tern
