import Mathlib
import Tern.Decimal.Layout
import Tern.Proofs.Decimal.Nearest

/-!
# Reading shortest decimals back

The shortest decimal of a double is searched on finer and finer grids among the numbers that round
to the double, so it is read back as the double. Should all grids up to that of seventeen digits
have no such number, what is left below the double on the next one is still nearer than half of
the gap: seventeen places after the first, a step is less than a tenth of it.

* `Decimal.rounds_search`: the shortest decimal of a double rounds to it;
* `Decimal.toFloat_ofFloat`: the shortest decimal of a double reads back as it;
* `Decimal.toCount_of_double`: a whole double is given back as a count.
-/

namespace Tern

namespace Decimal

open Binary

/-! ## The target -/

namespace Target

variable {t : Target}

/-- The numbers that the target stands for, in units of `10 ^ place`. -/
structure Covers (t : Target) (v : ℚ) : Prop where
  low : t.low ≤ v * t.denominator
  high : v * t.denominator ≤ t.high
  ends : t.closed = false → t.low < v * t.denominator ∧ v * t.denominator < t.high

theorem covers_of_holds {n : Nat} (h : t.holds n = true) : t.Covers n := by
  unfold holds at h
  cases hClosed : t.closed with
  | true =>
    simp only [hClosed, if_true, Bool.and_eq_true, decide_eq_true_eq] at h
    exact ⟨by exact_mod_cast h.1, by exact_mod_cast h.2, by simp [hClosed]⟩
  | false =>
    simp only [hClosed, Bool.false_eq_true, if_false, Bool.and_eq_true, decide_eq_true_eq] at h
    have hLow : (t.low : ℚ) < n * t.denominator := by exact_mod_cast h.1
    have hHigh : (n * t.denominator : ℚ) < t.high := by exact_mod_cast h.2
    exact ⟨hLow.le, hHigh.le, fun _ => ⟨hLow, hHigh⟩⟩

theorem holds_of_pick {n : Nat} (h : t.pick? = some n) : t.holds n = true := by
  unfold pick? at h
  dsimp only at h
  split at h
  · next hBelow hAbove =>
    split at h
    · cases h
      exact hBelow
    · split at h
      · cases h
        exact hAbove
      · cases h
        split
        · exact hBelow
        · exact hAbove
  · next hBelow _ =>
    cases h
    exact hBelow
  · next _ hAbove =>
    cases h
    exact hAbove
  · cases h

/-- A power with any exponent, by one above and one below the line. -/
theorem pow_toNat {b : ℚ} (hb : b ≠ 0) (e : ℤ) : b ^ e.toNat = b ^ e * b ^ (-e).toNat := by
  rcases Int.le_total 0 e with hSign | hSign
  · obtain ⟨k, rfl⟩ := Int.eq_ofNat_of_zero_le hSign
    have : (-(k : ℤ)).toNat = 0 := by omega
    simp [this]
  · obtain ⟨k, rfl⟩ : ∃ k : ℕ, e = -(k : ℤ) := ⟨e.natAbs, by omega⟩
    have : (-(k : ℤ)).toNat = 0 := by omega
    simp [this, hb]

/-- Measuring in other units changes the numbers, not what they stand for. -/
theorem covers_of_scale {place : ℤ} {v : ℚ} (h : (t.scale place).Covers v) :
    t.Covers (v * 10 ^ place) := by
  have hTen : (0 : ℚ) < 10 ^ (-place).toNat := by positivity
  have hScale : ∀ a : ℚ, a * (t.denominator * 10 ^ place.toNat) =
      a * 10 ^ place * t.denominator * 10 ^ (-place).toNat := by
    intro a
    rw [pow_toNat (by norm_num) place]
    ring
  have hLow := h.low
  have hHigh := h.high
  have hEnds := h.ends
  simp only [scale, Nat.pow_eq, Nat.cast_mul, Nat.cast_pow, Nat.cast_ofNat] at hLow hHigh hEnds
  rw [hScale] at hLow hHigh
  simp only [hScale] at hEnds
  refine ⟨le_of_mul_le_mul_right hLow hTen, le_of_mul_le_mul_right hHigh hTen, fun hOpen => ?_⟩
  obtain ⟨hLess, hMore⟩ := hEnds hOpen
  exact ⟨lt_of_mul_lt_mul_right hLess hTen.le, lt_of_mul_lt_mul_right hMore hTen.le⟩

/-- The search ends with a hit, or else with what is left of the target on the last grid. -/
theorem search_cases (t : Target) (fuel : Nat) (place : ℤ) :
    ∃ n p, t.search fuel place = ⟨false, n, p⟩ ∧ ((t.scale p).holds n = true ∨
      p = place - fuel ∧ n = (t.scale p).value / (t.scale p).denominator) := by
  induction fuel generalizing place with
  | zero => exact ⟨_, place, rfl, .inr ⟨by simp, rfl⟩⟩
  | succ fuel ih =>
    cases hPick : (t.scale place).pick? with
    | some n =>
      refine ⟨n, place, ?_, .inl (holds_of_pick hPick)⟩
      rw [search, hPick]
    | none =>
      obtain ⟨n, p, hSearch, hCases⟩ := ih (place - 1)
      refine ⟨n, p, by rw [search, hPick, hSearch], ?_⟩
      rcases hCases with hHolds | ⟨rfl, hRest⟩
      · exact .inl hHolds
      · exact .inr ⟨by push_cast; omega, hRest⟩

/-! ## The target of a double -/

variable {b : Binary} {j : Nat}

/-- The parts of a double whose last bit has the place `j`, counted from that of the least. -/
structure At (b : Binary) (j : Nat) : Prop where
  exponent : b.exponent = (j : ℤ) - 1074
  fits : Fits b.mantissa j

/-- A quarter of the last place, in units of the least double. -/
theorem quarter_unit (hAt : At b j) : (2 : ℚ) ^ (b.exponent - 2) * unit = 2 ^ j / 4 := by
  have hExponent : b.exponent - 2 = (j : ℤ) - 2 - (1074 : ℕ) := by
    rw [hAt.exponent]
    push_cast
    ring
  rw [hExponent, unit_cast, zpow_sub₀ (by norm_num) _ ((1074 : ℕ) : ℤ), zpow_natCast,
    div_mul_cancel₀ _ (by positivity), zpow_sub₀ (by norm_num), zpow_natCast]
  norm_num

theorem denominator_pos (b : Binary) : (0 : ℚ) < (ofBinary b).denominator := by
  simp only [ofBinary, Nat.pow_eq, Nat.cast_pow, Nat.cast_ofNat]
  positivity

/-- The target in units of the least double. -/
theorem ofBinary_units (hAt : At b j) (a : ℚ) :
    a * ((Nat.pow 2 (b.exponent - 2).toNat : ℕ) : ℚ) / (ofBinary b).denominator * unit =
      a / 4 * 2 ^ j := by
  have hOther : (2 - b.exponent).toNat = (-(b.exponent - 2)).toNat := by
    congr 1
    ring
  simp only [ofBinary, Nat.pow_eq, Nat.cast_pow, Nat.cast_ofNat]
  rw [hOther, pow_toNat (by norm_num) (b.exponent - 2), ← mul_assoc,
    mul_div_cancel_right₀ _ (by positivity), mul_assoc, quarter_unit hAt]
  ring

theorem low_ofBinary (hAt : At b j) : ((ofBinary b).low : ℚ) = (4 * b.mantissa -
    (if b.mantissa = 2 ^ 52 ∧ 0 < j then 1 else 2)) *
      ((Nat.pow 2 (b.exponent - 2).toNat : ℕ) : ℚ) := by
  have hPos := hAt.fits.pos
  have hNarrow : (decide (b.mantissa = Nat.pow 2 52) && decide (-1074 < b.exponent)) =
      decide (b.mantissa = 2 ^ 52 ∧ 0 < j) := by
    have hPlace : -1074 < b.exponent ↔ 0 < j := by
      rw [hAt.exponent]
      omega
    rw [Bool.decide_and, decide_eq_decide.mpr hPlace]
    rfl
  simp only [ofBinary, hNarrow, decide_eq_true_eq]
  split
  · rw [Nat.cast_mul, Nat.cast_sub (by omega)]
    push_cast
    ring
  · rw [Nat.cast_mul, Nat.cast_sub (by omega)]
    push_cast
    ring

theorem high_ofBinary (b : Binary) : ((ofBinary b).high : ℚ) = (4 * b.mantissa + 2) *
    ((Nat.pow 2 (b.exponent - 2).toNat : ℕ) : ℚ) := by
  simp only [ofBinary]
  push_cast
  ring

/-- What a target covers rounds to its double. -/
theorem rounds_of_covers {v : ℚ} (hAt : At b j) (h : (ofBinary b).Covers v) :
    Rounds b.mantissa j (v * unit) := by
  have hDenominator := denominator_pos b
  have hLow := low_ofBinary hAt
  have hHigh := high_ofBinary b
  refine ⟨?_, ?_, fun hOdd => ?_⟩
  · have := mul_le_mul_of_nonneg_right ((div_le_iff₀ hDenominator).mpr h.low) unit_pos.le
    rw [hLow, ofBinary_units hAt] at this
    refine le_trans (le_of_eq ?_) this
    split <;> ring
  · have := mul_le_mul_of_nonneg_right ((le_div_iff₀ hDenominator).mpr h.high) unit_pos.le
    rw [hHigh, ofBinary_units hAt] at this
    refine le_trans this (le_of_eq ?_)
    ring
  · have hOpen : (ofBinary b).closed = false := by
      simp [ofBinary, hOdd]
    have hWide : ¬(b.mantissa = 2 ^ 52 ∧ 0 < j) := by
      rintro ⟨hEven, -⟩
      rw [hEven] at hOdd
      norm_num at hOdd
    obtain ⟨hLess, hMore⟩ := h.ends hOpen
    have hBelow := mul_lt_mul_of_pos_right ((div_lt_iff₀ hDenominator).mpr hLess) unit_pos
    have hAbove := mul_lt_mul_of_pos_right ((lt_div_iff₀ hDenominator).mpr hMore) unit_pos
    rw [hLow, ofBinary_units hAt, if_neg hWide] at hBelow
    rw [hHigh, ofBinary_units hAt] at hAbove
    refine ⟨lt_of_le_of_lt (le_of_eq ?_) hBelow, lt_of_lt_of_le hAbove (le_of_eq ?_)⟩ <;> ring

/-- The double itself. -/
def exact (t : Target) : ℚ := t.value / t.denominator

theorem exact_ofBinary (hAt : At b j) : (ofBinary b).exact * unit = b.mantissa * 2 ^ j := by
  have hValue : ((ofBinary b).value : ℚ) = 4 * b.mantissa *
      ((Nat.pow 2 (b.exponent - 2).toNat : ℕ) : ℚ) := by
    simp only [ofBinary]
    push_cast
    ring
  rw [exact, hValue, ofBinary_units hAt]
  ring

/-! ### Without a hit -/

theorem two_pow_le_ten_pow (s : Nat) : 2 ^ s ≤ 10 ^ (s * 31 / 100 + 1) := by
  refine (Nat.pow_le_pow_iff_left (show (100 : ℕ) ≠ 0 by norm_num)).mp ?_
  calc (2 ^ s) ^ 100 = (2 ^ 100) ^ s := by rw [← pow_mul, ← pow_mul, Nat.mul_comm]
    _ ≤ (10 ^ 31) ^ s := Nat.pow_le_pow_left (by norm_num) s
    _ = 10 ^ (31 * s) := (pow_mul 10 31 s).symm
    _ ≤ 10 ^ ((s * 31 / 100 + 1) * 100) := Nat.pow_le_pow_right (by norm_num) (by omega)
    _ = (10 ^ (s * 31 / 100 + 1)) ^ 100 := pow_mul 10 _ 100

theorem leadingPlace_le (hValue : 0 < t.value) (hDenominator : 0 < t.denominator) :
    (10 : ℚ) ^ t.leadingPlace ≤ t.exact := by
  have hLifted : t.denominator ≤ t.value * 10 ^ t.lift := by
    have hBelow : 2 ^ Nat.log2 t.value ≤ t.value := Nat.log2_self_le hValue.ne'
    have hTen := two_pow_le_ten_pow (Nat.log2 t.denominator + 1 - Nat.log2 t.value)
    calc t.denominator ≤ 2 ^ (Nat.log2 t.denominator + 1) := Nat.lt_log2_self.le
      _ ≤ 2 ^ (Nat.log2 t.value + (Nat.log2 t.denominator + 1 - Nat.log2 t.value)) :=
        Nat.pow_le_pow_right (by norm_num) (by omega)
      _ = 2 ^ Nat.log2 t.value * 2 ^ (Nat.log2 t.denominator + 1 - Nat.log2 t.value) :=
        pow_add _ _ _
      _ ≤ t.value * 10 ^ t.lift := Nat.mul_le_mul hBelow hTen
  have hWhole : 0 < t.value * 10 ^ t.lift / t.denominator := Nat.div_pos hLifted hDenominator
  unfold leadingPlace
  rw [Nat.pow_eq]
  generalize hQuotient : t.value * 10 ^ t.lift / t.denominator = q at hWhole
  have hLength : 10 ^ ((Nat.toDigits 10 q).length - 1) ≤ q := by
    rcases Nat.eq_zero_or_pos ((Nat.toDigits 10 q).length - 1) with hOne | hMore
    · rw [hOne]
      exact hWhole
    · refine Nat.le_of_not_lt fun hLess => ?_
      have := (Nat.length_toDigits_le_iff (by norm_num) hMore).mpr hLess
      omega
  have hDigits : 0 < (Nat.toDigits 10 q).length := Nat.length_toDigits_pos
  have hPos : (0 : ℚ) < t.denominator := by exact_mod_cast hDenominator
  have hBound : (q : ℚ) * t.denominator ≤ t.value * 10 ^ t.lift := by
    rw [← hQuotient]
    exact_mod_cast Nat.div_mul_le_self _ _
  have hPlace : ((Nat.toDigits 10 q).length : ℤ) - (t.lift + 1) =
      (((Nat.toDigits 10 q).length - 1 : ℕ) : ℤ) - (t.lift : ℤ) := by
    omega
  rw [hPlace, zpow_sub₀ (by norm_num), zpow_natCast, zpow_natCast, exact,
    div_le_div_iff₀ (by positivity) hPos]
  refine le_trans (mul_le_mul_of_nonneg_right ?_ hPos.le) hBound
  exact_mod_cast hLength

theorem exact_scale (t : Target) (place : ℤ) : (t.scale place).exact * 10 ^ place = t.exact := by
  have hTen : (0 : ℚ) < 10 ^ (-place).toNat := by positivity
  simp only [exact, scale, Nat.pow_eq, Nat.cast_mul, Nat.cast_pow, Nat.cast_ofNat]
  rw [pow_toNat (by norm_num) place]
  rcases eq_or_ne (t.denominator : ℚ) 0 with hZero | hNe
  · simp [hZero]
  · field_simp

/-- A target lies at most one step above what is cut off at a place. -/
theorem exact_near (hDenominator : 0 < t.denominator) (place : ℤ) {n : Nat}
    (hn : n = (t.scale place).value / (t.scale place).denominator) :
    (n : ℚ) * 10 ^ place ≤ t.exact ∧ t.exact < n * 10 ^ place + 10 ^ place := by
  have hScale : (0 : ℚ) < 10 ^ place := by positivity
  have hScaled : 0 < (t.scale place).denominator :=
    Nat.mul_pos hDenominator (Nat.pow_pos (by norm_num))
  have hPos : (0 : ℚ) < (t.scale place).denominator := by exact_mod_cast hScaled
  have hBelow : (n : ℚ) ≤ (t.scale place).exact := by
    rw [hn]
    exact Nat.cast_div_le
  have hAbove : (t.scale place).exact < n + 1 := by
    rw [exact, div_lt_iff₀ hPos, hn]
    have := Nat.lt_mul_div_succ (t.scale place).value hScaled
    rw [Nat.mul_comm] at this
    exact_mod_cast this
  have hLess := mul_le_mul_of_nonneg_right hBelow hScale.le
  have hMore := mul_lt_mul_of_pos_right hAbove hScale
  rw [exact_scale] at hLess hMore
  rw [add_mul, one_mul] at hMore
  exact ⟨hLess, hMore⟩

/-- Seventeen places after the first, a step is less than a quarter of the last place. -/
theorem step_lt (hAt : At b j) :
    (10 : ℚ) ^ ((ofBinary b).leadingPlace - 17) * unit < 1 / 4 * 2 ^ j := by
  have hDenominator : 0 < (ofBinary b).denominator := by exact_mod_cast denominator_pos b
  have hValue : 0 < (ofBinary b).value := by
    have := hAt.fits.pos
    simp only [ofBinary, Nat.pow_eq]
    positivity
  have hBits : (b.mantissa : ℚ) < 2 ^ 53 := by exact_mod_cast hAt.fits.bits
  have hPlace : (0 : ℚ) < 2 ^ j := by positivity
  have hScale : (0 : ℚ) < 10 ^ ((ofBinary b).leadingPlace - 17) := by positivity
  have hSteps : (10 : ℚ) ^ (ofBinary b).leadingPlace =
      10 ^ 17 * 10 ^ ((ofBinary b).leadingPlace - 17) := by
    rw [← zpow_natCast (10 : ℚ) 17, ← zpow_add₀ (by norm_num)]
    congr 1
    push_cast
    ring
  have hMost : (10 : ℚ) ^ 17 * (10 ^ ((ofBinary b).leadingPlace - 17) * unit) < 2 ^ 53 * 2 ^ j := by
    calc (10 : ℚ) ^ 17 * (10 ^ ((ofBinary b).leadingPlace - 17) * unit)
        = 10 ^ (ofBinary b).leadingPlace * unit := by rw [hSteps, mul_assoc]
      _ ≤ (ofBinary b).exact * unit :=
          mul_le_mul_of_nonneg_right (leadingPlace_le hValue hDenominator) unit_pos.le
      _ = b.mantissa * 2 ^ j := exact_ofBinary hAt
      _ < 2 ^ 53 * 2 ^ j := mul_lt_mul_of_pos_right hBits hPlace
  have hRoom : (4 : ℚ) * 2 ^ 53 ≤ 10 ^ 17 := by norm_num
  have hEach := mul_le_mul_of_nonneg_right hRoom (mul_pos hScale unit_pos).le
  linarith

/-- Seventeen places after the first, what lies below is nearer than half of the gap to the next
lower double. -/
theorem rounds_floor {n : Nat} {p : ℤ} (hAt : At b j) (hp : p = (ofBinary b).leadingPlace - 17)
    (hn : n = ((ofBinary b).scale p).value / ((ofBinary b).scale p).denominator) :
    Rounds b.mantissa j (n * 10 ^ p * unit) := by
  have hDenominator : 0 < (ofBinary b).denominator := by exact_mod_cast denominator_pos b
  obtain ⟨hLess, hNear⟩ := exact_near hDenominator p hn
  have hUnits := exact_ofBinary hAt
  have hPlace : (0 : ℚ) < 2 ^ j := by positivity
  have hStep : (10 : ℚ) ^ p * unit < 1 / 4 * 2 ^ j := hp ▸ step_lt hAt
  have hLow : (b.mantissa - 1 / 4 : ℚ) * 2 ^ j < n * 10 ^ p * unit := by
    have := mul_lt_mul_of_pos_right hNear unit_pos
    rw [add_mul, hUnits] at this
    linarith
  have hHigh : (n : ℚ) * 10 ^ p * unit ≤ b.mantissa * 2 ^ j := by
    rw [← hUnits]
    exact mul_le_mul_of_nonneg_right hLess unit_pos.le
  refine ⟨?_, by linarith, fun _ => ⟨by linarith, by linarith⟩⟩
  refine le_trans (mul_le_mul_of_nonneg_right ?_ hPlace.le) hLow.le
  split <;> linarith

end Target

open Target

/-! ## Reading back -/

/-- The shortest decimal of a double that is not zero rounds to it. -/
theorem rounds_search {b : Binary} {j : Nat} (hAt : At b j) :
    Rounds b.mantissa j
      (((ofBinary b).search 17 (ofBinary b).leadingPlace).magnitude * unit) := by
  obtain ⟨n, p, hSearch, hHolds | ⟨hLast, hRest⟩⟩ :=
    search_cases (ofBinary b) 17 (ofBinary b).leadingPlace
  · rw [hSearch]
    exact rounds_of_covers hAt (covers_of_scale (covers_of_holds hHolds))
  · rw [hSearch]
    exact rounds_floor hAt hLast hRest

end Decimal

namespace Binary

/-- The bits of a finite double, by its parts. -/
theorem bits_of_ofFloat {x : Float} {b : Binary} (h : ofFloat? x = some b) :
    ∃ j : ℕ, b.exponent = (j : ℤ) - 1074 ∧ b.mantissa < 2 ^ 53 ∧
      (2 ^ 52 ≤ b.mantissa ∨ j = 0) ∧ j ≤ 2045 ∧
      x.toBits.toNat = (if b.negative then 2 ^ 63 else 0) + (j * 2 ^ 52 + b.mantissa) := by
  have hBits : x.toBits.toNat < 2 ^ 64 := x.toBits.toNat_lt
  unfold ofFloat? at h
  simp only [Nat.pow_eq] at h
  generalize x.toBits.toNat = bits at h hBits
  split at h
  · cases h
  · split at h
    · cases h
      refine ⟨0, by simp, ?_, .inr rfl, by omega, ?_⟩
      · dsimp only
        omega
      · dsimp only
        simp only [decide_eq_true_eq]
        split <;> omega
    · cases h
      refine ⟨bits / 2 ^ 52 % 2 ^ 11 - 1, ?_, ?_, .inl ?_, ?_, ?_⟩
      · dsimp only
        omega
      · dsimp only
        omega
      · dsimp only
        omega
      · omega
      · dsimp only
        simp only [decide_eq_true_eq]
        split <;> omega

end Binary

namespace Decimal

open Binary Target

theorem negative_normalize (d : Decimal) : d.normalize.negative = d.negative := by
  unfold normalize
  split <;> rfl

section

variable {x : Float} {b : Binary} {d : Decimal} {j : Nat}

/-- A double other than zero has its last bit at some place. -/
theorem exists_at (hb : Binary.ofFloat? x = some b) (hPos : 0 < b.mantissa) : ∃ j, At b j := by
  obtain ⟨j, hExponent, hMantissa, hNormal, hFinite, -⟩ := bits_of_ofFloat hb
  exact ⟨j, hExponent, hPos, hMantissa, hNormal, hFinite⟩

/-- A decimal that rounds to a double reads back as it. -/
theorem toFloat_of_rounds (hb : Binary.ofFloat? x = some b) (hAt : At b j)
    (hSign : d.negative = b.negative) (h : Rounds b.mantissa j (d.magnitude * unit)) :
    d.toFloat = x := by
  obtain ⟨k, hExponent, -, -, -, hBits⟩ := bits_of_ofFloat hb
  obtain rfl : j = k := by
    have := hAt.exponent
    omega
  rw [toFloat, magnitudeBits_of_rounds hAt.fits h, hSign]
  simp only [Nat.pow_eq]
  rw [← hBits, UInt64.ofNat_toNat, Float.ofBits_toBits]

/-- The shortest decimal of a double other than zero rounds to it. -/
theorem rounds_ofFloat (hb : Binary.ofFloat? x = some b) (hAt : At b j)
    (hd : Decimal.ofFloat? x = some d) :
    d.negative = b.negative ∧ Rounds b.mantissa j (d.magnitude * unit) := by
  rw [Decimal.ofFloat?, hb, Option.map_some, if_neg hAt.fits.pos.ne'] at hd
  cases hd
  refine ⟨negative_normalize _, ?_⟩
  rw [magnitude_normalize]
  exact rounds_search hAt

/-- The shortest decimal of a double reads back as it. -/
theorem toFloat_ofFloat (h : Decimal.ofFloat? x = some d) : d.toFloat = x := by
  obtain ⟨b, hb, hd⟩ := Option.map_eq_some_iff.mp h
  rcases Nat.eq_zero_or_pos b.mantissa with hZero | hPos
  · obtain ⟨j, -, -, hNormal, -, hBits⟩ := bits_of_ofFloat hb
    have hPlace : j = 0 := hNormal.resolve_left (by omega)
    rw [hPlace, hZero, Nat.zero_mul, Nat.zero_add] at hBits
    rw [← hd, if_pos hZero, toFloat, magnitudeBits, if_pos rfl]
    simp only [Nat.pow_eq]
    rw [← hBits, UInt64.ofNat_toNat, Float.ofBits_toBits]
  · obtain ⟨j, hAt⟩ := exists_at hb hPos
    obtain ⟨hSign, hRounds⟩ := rounds_ofFloat hb hAt h
    exact toFloat_of_rounds hb hAt hSign hRounds

end

/-! ## Counts -/

variable {x : Float} {b : Binary} {d : Decimal} {j n : Nat}

/-- The whole number that a double is, by its parts. -/
theorem parts_of_toInt (hb : Binary.ofFloat? x = some b) (hx : Number.toInt? x = some (n : ℤ))
    (hPos : 0 < n) : b.negative = false ∧ (b.mantissa : ℚ) * 2 ^ b.exponent = n := by
  rw [Number.toInt?, hb, Option.bind_some, Binary.toInt?] at hx
  cases hk : b.magnitude? with
  | none =>
    rw [hk] at hx
    cases hx
  | some k =>
  rw [hk] at hx
  have hSign : (if b.negative = true then -(k : ℤ) else k) = n := Option.some.inj hx
  have hPositive : b.negative = false := by
    cases hNegative : b.negative with
    | false => rfl
    | true =>
      rw [hNegative, if_pos rfl] at hSign
      omega
  rw [hPositive, if_neg (by simp)] at hSign
  obtain rfl : k = n := by exact_mod_cast hSign
  refine ⟨hPositive, ?_⟩
  unfold magnitude? at hk
  simp only [Nat.pow_eq] at hk
  split at hk
  · next hWhole =>
    obtain ⟨e, he⟩ := Int.eq_ofNat_of_zero_le hWhole
    cases hk
    rw [he, Int.toNat_natCast, zpow_natCast]
    push_cast
    rfl
  · next hFraction =>
    split at hk
    · next hDivides =>
      obtain ⟨e, he⟩ : ∃ e : ℕ, b.exponent = -(e : ℤ) := ⟨b.exponent.natAbs, by omega⟩
      cases hk
      rw [he] at hDivides ⊢
      rw [Int.natAbs_neg, Int.natAbs_natCast] at hDivides ⊢
      rw [Nat.cast_div (Nat.dvd_of_mod_eq_zero hDivides) (by positivity), zpow_neg, zpow_natCast]
      push_cast
      ring
    · cases hk

/-- A double rounds to itself. -/
theorem rounds_self (m j : Nat) : Rounds m j ((m : ℚ) * 2 ^ j) := by
  have hScale : (0 : ℚ) < 2 ^ j := by positivity
  refine ⟨mul_le_mul_of_nonneg_right ?_ hScale.le, mul_le_mul_of_nonneg_right ?_ hScale.le,
    fun _ => ⟨mul_lt_mul_of_pos_right ?_ hScale, mul_lt_mul_of_pos_right ?_ hScale⟩⟩
  · split <;> linarith
  all_goals linarith

/-- What rounds to a double with all its bits is less than one part in `2 ^ 53` below it. -/
theorem gap_lt {m : Nat} {u : ℚ} (hNormal : 2 ^ 52 ≤ m) (hPlace : 0 < j) (h : Rounds m j u) :
    ((2 : ℚ) ^ 53 - 1) * (m * 2 ^ j) < 2 ^ 53 * u := by
  have hScale : (0 : ℚ) < 2 ^ j := by positivity
  have hStep : (2 : ℚ) ^ 53 * (if m = 2 ^ 52 ∧ 0 < j then 1 / 4 else 1 / 2) < m := by
    split
    · next hNarrow =>
      rw [hNarrow.1]
      norm_num
    · next hWide =>
      have hMore : 2 ^ 52 + 1 ≤ m :=
        Nat.lt_of_le_of_ne hNormal fun hSame => hWide ⟨hSame.symm, hPlace⟩
      have : (2 : ℚ) ^ 52 + 1 ≤ m := by exact_mod_cast hMore
      linarith
  have hLow := h.low
  nlinarith

/-- No whole number without gaps around it rounds to a double beyond them. -/
theorem exactBound_le_of_rounds {k : Nat} (hAt : At b j) (hn : exactBound ≤ n)
    (hValue : (b.mantissa : ℚ) * 2 ^ j = n * unit) (h : Rounds b.mantissa j (k * unit)) :
    exactBound ≤ k := by
  have hUnit : (1 : ℚ) ≤ unit := by
    rw [unit_cast]
    exact one_le_pow₀ (by norm_num)
  have hLarge : (2 : ℚ) ^ 53 ≤ n := by exact_mod_cast (show 2 ^ 53 ≤ n from hn)
  have hMantissa : (b.mantissa : ℚ) < 2 ^ 53 := by exact_mod_cast hAt.fits.bits
  have hPlace : 0 < j := by
    refine Nat.pos_of_ne_zero ?_
    rintro rfl
    rw [pow_zero, mul_one] at hValue
    nlinarith
  have hGap := gap_lt (hAt.fits.normal.resolve_right hPlace.ne') hPlace h
  rw [hValue, ← mul_assoc, ← mul_assoc] at hGap
  have hNear : ((2 : ℚ) ^ 53 - 1) * n < 2 ^ 53 * k := lt_of_mul_lt_mul_right hGap unit_pos.le
  have hMore : ((2 ^ 53 : ℕ) : ℚ) < (k + 1 : ℕ) := by
    push_cast
    linarith
  exact Nat.le_of_lt_succ (by exact_mod_cast hMore)

theorem magnitude_of_small {k : Nat} (h : d.small? = some k) :
    d.magnitude = k ∧ k < exactBound := by
  unfold small? at h
  simp only [Nat.pow_eq, Bool.or_eq_true, decide_eq_true_eq] at h
  split at h
  · cases h
  · next hNear =>
    split at h
    · next hLess =>
      cases h
      refine ⟨?_, hLess⟩
      obtain ⟨e, he⟩ := Int.eq_ofNat_of_zero_le (show 0 ≤ d.exponent by omega)
      rw [magnitude, he, Int.toNat_natCast, zpow_natCast]
      push_cast
      rfl
    · cases h

/-- A whole number below those with gaps is recognized without making the double. -/
theorem small_ofNat {n : Nat} (hBound : n < exactBound) : (ofNat n).small? = some n := by
  rcases Nat.eq_zero_or_pos n with rfl | hPos
  · decide
  obtain ⟨c, k, hc, rfl⟩ := exists_strip n hPos
  have hNormal : ofNat (c * 10 ^ k) = ⟨false, c, k⟩ := by
    rw [ofNat, normalize_mul_pow hc, Int.zero_add]
  have hExponent : k ≤ 16 := by
    refine Nat.le_of_not_lt fun hk => ?_
    have hPow : 10 ^ 17 ≤ 10 ^ k := Nat.pow_le_pow_right (by omega) hk
    have hMul : 10 ^ k ≤ c * 10 ^ k := Nat.le_mul_of_pos_left _ (by omega)
    have hSmall : exactBound < 10 ^ 17 := by decide
    omega
  have hNotAbove : ¬(16 < (k : Int)) := by omega
  have hNotBelow : ¬((k : Int) < 0) := by omega
  simp only [hNormal, small?, hNotAbove, hNotBelow, decide_false, Bool.or_self,
    Bool.false_eq_true, if_false, Int.toNat_natCast, Nat.pow_eq]
  rw [if_pos hBound]

/-- A whole double beyond those without gaps is given back as a count. -/
theorem toCount_of_double (hn : exactBound ≤ n) (hx : Number.toInt? x = some (n : ℤ)) :
    (ofCount n).toCount? = some n := by
  have hPos : 0 < n := lt_of_lt_of_le (by decide) hn
  obtain ⟨b, hb⟩ : ∃ b, Binary.ofFloat? x = some b := by
    unfold Number.toInt? at hx
    cases hb : Binary.ofFloat? x with
    | none =>
      rw [hb] at hx
      cases hx
    | some b => exact ⟨b, rfl⟩
  obtain ⟨hSign, hParts⟩ := parts_of_toInt hb hx hPos
  have hMantissaPos : 0 < b.mantissa := by
    refine Nat.pos_of_ne_zero fun hZero => ?_
    rw [hZero, Nat.cast_zero, zero_mul] at hParts
    have : n = 0 := by exact_mod_cast hParts.symm
    omega
  obtain ⟨j, hAt⟩ := exists_at hb hMantissaPos
  have hValue : (b.mantissa : ℚ) * 2 ^ j = n * unit := by
    rw [← hParts, unit_cast, hAt.exponent, mul_assoc, zpow_sub₀ (by norm_num), zpow_natCast]
    congr 1
    exact (div_mul_cancel₀ _ (by positivity)).symm
  have hNearest : (ofNat n).toFloat = x := by
    refine toFloat_of_rounds hb hAt ((negative_normalize _).trans hSign.symm) ?_
    have hMagnitude : (ofNat n).magnitude = n := by
      rw [ofNat, magnitude_normalize]
      simp [magnitude]
    rw [hMagnitude, ← hValue]
    exact rounds_self _ _
  obtain ⟨d, hd⟩ : ∃ d, Decimal.ofFloat? x = some d :=
    ⟨_, by rw [Decimal.ofFloat?, hb, Option.map_some]⟩
  obtain ⟨-, hShortest⟩ := rounds_ofFloat hb hAt hd
  have hCount : ofCount n = d := by
    rw [ofCount, if_neg (Nat.not_lt.mpr hn), hNearest, hd, Option.getD_some]
  have hLarge : d.small? = none := by
    cases hSmall : d.small? with
    | none => rfl
    | some k =>
      obtain ⟨hMagnitude, hLess⟩ := magnitude_of_small hSmall
      rw [hMagnitude] at hShortest
      exact absurd (exactBound_le_of_rounds hAt hn hValue hShortest) (Nat.not_le.mpr hLess)
  obtain ⟨k, rfl⟩ : ∃ k, n = k + 1 := ⟨n - 1, by omega⟩
  rw [hCount, toCount?, hLarge]
  dsimp only
  rw [toFloat_ofFloat hd, hx]

end Decimal

end Tern
