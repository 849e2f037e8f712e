import Mathlib.Algebra.Group.Nat.Defs
import Tern.Decimal.Layout
import Tern.Decimal.Numeral

/-!
# Reading written decimals

A written decimal is a sign, digits, digits after a point and a power of ten, the last two of
which may be missing. Reading such a numeral gives the decimal of its parts, and since a decimal
has only one form without factors of ten, that is the decimal that was written.

* `Decimal.Normal`: the decimals without factors of ten;
* `Numeral`: the parts of a number text;
* `Decimal.exists_numeral`: what is written for a decimal is a numeral with the value of it;
* `Numeral.ofNumeral_chars`: reading a numeral gives its value.
-/

namespace Tern

namespace Decimal

/-! ## Normal decimals -/

/-- The coefficient has no factor of ten, and zero has no exponent. -/
def Normal (d : Decimal) : Prop :=
  d.coefficient % 10 ≠ 0 ∨ d.coefficient = 0 ∧ d.exponent = 0

theorem stripZeros_mul_pow {c : Nat} (hc : c % 10 ≠ 0) (k fuel : Nat) (e : Int) (hk : k ≤ fuel) :
    stripZeros fuel (c * 10 ^ k) e = (c, e + k) := by
  induction k generalizing fuel e with
  | zero =>
    cases fuel with
    | zero => simp [stripZeros]
    | succ fuel => simp [stripZeros, hc]
  | succ k ih =>
    obtain ⟨fuel, rfl⟩ : ∃ f, fuel = f + 1 := ⟨fuel - 1, by omega⟩
    have hSplit : c * 10 ^ (k + 1) = c * 10 ^ k * 10 := by rw [Nat.pow_succ, Nat.mul_assoc]
    have hMod : (c * 10 ^ k * 10) % 10 = 0 := Nat.mul_mod_left _ _
    have hDiv : c * 10 ^ k * 10 / 10 = c * 10 ^ k := Nat.mul_div_cancel _ (by omega)
    rw [hSplit, stripZeros]
    simp only [hMod, hDiv, beq_self_eq_true, if_true]
    rw [ih fuel (e + 1) (by omega)]
    simp only [Prod.mk.injEq, true_and]
    omega

/-- Taking the factors of ten out of a coefficient gives the only normal form. -/
theorem normalize_mul_pow {negative : Bool} {c k : Nat} {e : Int} (hc : c % 10 ≠ 0) :
    normalize ⟨negative, c * 10 ^ k, e⟩ = ⟨negative, c, e + k⟩ := by
  have hPos : 0 < c := by omega
  have hPow : 0 < 10 ^ k := Nat.pow_pos (by omega)
  have hNe : c * 10 ^ k ≠ 0 := Nat.ne_of_gt (Nat.mul_pos hPos hPow)
  have hFuel : k ≤ Nat.log2 (c * 10 ^ k) := by
    rw [Nat.le_log2 hNe]
    calc 2 ^ k ≤ 10 ^ k := Nat.pow_le_pow_left (by omega) k
      _ ≤ c * 10 ^ k := Nat.le_mul_of_pos_left _ hPos
  unfold normalize
  rw [if_neg hNe]
  dsimp only
  rw [stripZeros_mul_pow hc k _ e hFuel]

theorem normalize_of_normal {d : Decimal} (hd : d.Normal) : d.normalize = d := by
  obtain ⟨negative, c, e⟩ := d
  rcases hd with hc | ⟨rfl, rfl⟩
  · have hSame : normalize ⟨negative, c * 10 ^ 0, e⟩ = ⟨negative, c, e + (0 : Nat)⟩ :=
      normalize_mul_pow hc
    simpa using hSame
  · rfl

/-- Every positive number is one without factors of ten times a power of ten. -/
theorem exists_strip (n : Nat) (hn : 0 < n) : ∃ c k, c % 10 ≠ 0 ∧ n = c * 10 ^ k := by
  induction n using Nat.strongRecOn with
  | ind n ih =>
    by_cases hMod : n % 10 = 0
    · obtain ⟨c, k, hc, hEq⟩ := ih (n / 10) (by omega) (by omega)
      refine ⟨c, k + 1, hc, ?_⟩
      rw [Nat.pow_succ, ← Nat.mul_assoc, ← hEq]
      omega
    · exact ⟨n, 0, hMod, by simp⟩

theorem normal_normalize (d : Decimal) : d.normalize.Normal := by
  obtain ⟨negative, n, e⟩ := d
  by_cases hn : n = 0
  · subst hn
    exact .inr ⟨rfl, rfl⟩
  · obtain ⟨c, k, hc, rfl⟩ := exists_strip n (by omega)
    rw [normalize_mul_pow hc]
    exact .inl hc

/-! ## Digits -/

theorem isDigit_toDigits {n : Nat} {c : Char} (h : c ∈ Nat.toDigits 10 n) : isDigit c = true := by
  have hDigit := Nat.isDigit_of_mem_toDigits (by omega) (by omega) h
  simpa [isDigit, Char.isDigit, Char.le_def] using hDigit

theorem valueOfDigits_eq (cs : List Char) : valueOfDigits cs = Nat.ofDigitChars 10 cs 0 := by
  unfold valueOfDigits digitValue
  rw [Nat.ofDigitChars_eq_foldl]
  congr 1
  funext n c
  rw [Nat.mul_comm]

theorem valueOfDigits_toDigits (n : Nat) : valueOfDigits (Nat.toDigits 10 n) = n := by
  rw [valueOfDigits_eq, Nat.ofDigitChars_ten_toDigits]

theorem valueOfDigits_append_zeros (cs : List Char) (k : Nat) :
    valueOfDigits (cs ++ List.replicate k '0') = valueOfDigits cs * 10 ^ k := by
  rw [valueOfDigits_eq, valueOfDigits_eq, Nat.ofDigitChars_append,
    Nat.ofDigitChars_replicate_zero, Nat.mul_comm]

theorem valueOfDigits_zeros_append (cs : List Char) (k : Nat) :
    valueOfDigits (List.replicate k '0' ++ cs) = valueOfDigits cs := by
  rw [valueOfDigits_eq, valueOfDigits_eq, Nat.ofDigitChars_append,
    Nat.ofDigitChars_replicate_zero, Nat.mul_zero]

theorem head_append {cs rest : List Char} (h : cs ≠ []) : (cs ++ rest).head? = cs.head? := by
  cases cs with
  | nil => exact absurd rfl h
  | cons c cs => rfl

/-- A positive number does not start with a zero. -/
theorem head_toDigits {n : Nat} (hn : 0 < n) : (Nat.toDigits 10 n).head? ≠ some '0' := by
  induction n using Nat.strongRecOn with
  | ind n ih =>
    by_cases hSmall : n < 10
    · rw [Nat.toDigits_of_lt_base hSmall]
      simp
      omega
    · rw [Nat.toDigits_of_base_le (by omega) (by omega), head_append (by simp)]
      exact ih (n / 10) (by omega) (by omega)

end Decimal

/-! ## Runs of characters -/

section

variable {p : Char → Bool} {cs rest : List Char}

theorem takeWhile_run (hRun : ∀ c ∈ cs, p c = true)
    (hRest : ∀ c, rest.head? = some c → p c = false) : (cs ++ rest).takeWhile p = cs := by
  have hStop : rest.takeWhile p = [] := by
    cases rest with
    | nil => rfl
    | cons c rest => simp [hRest c rfl]
  rw [List.takeWhile_append_of_pos hRun, hStop, List.append_nil]

theorem dropWhile_run (hRun : ∀ c ∈ cs, p c = true)
    (hRest : ∀ c, rest.head? = some c → p c = false) : (cs ++ rest).dropWhile p = rest := by
  have hStop : rest.dropWhile p = rest := by
    cases rest with
    | nil => rfl
    | cons c rest => simp [hRest c rfl]
  rw [List.dropWhile_append_of_pos hRun, hStop]

end

/-! ## Numerals -/

/-- The parts of a number text. Where there are no digits after the point there is no point. -/
structure Numeral where
  negative : Bool
  whole : List Char
  fraction : List Char
  exponent : Option Int

namespace Numeral

/-- The point and what comes after it. -/
def fractionText (n : Numeral) : List Char :=
  if n.fraction = [] then [] else '.' :: n.fraction

/-- The power of ten. -/
def powerText (n : Numeral) : List Char :=
  match n.exponent with
  | some e => Decimal.exponentText e
  | none => []

/-- The text without the sign. -/
def body (n : Numeral) : List Char := n.whole ++ (n.fractionText ++ n.powerText)

/-- The text of a numeral. -/
def chars (n : Numeral) : List Char := if n.negative then '-' :: n.body else n.body

/-- The decimal that a numeral denotes. -/
def value (n : Numeral) : Decimal :=
  Decimal.ofDigits n.negative n.whole n.fraction (n.exponent.getD 0)

/-- Digits stand where digits belong, at least one before the point and no superfluous zero. -/
structure Strict (n : Numeral) : Prop where
  whole : ∀ c ∈ n.whole, isDigit c = true
  fraction : ∀ c ∈ n.fraction, isDigit c = true
  nonempty : n.whole ≠ []
  noZero : n.whole = ['0'] ∨ n.whole.head? ≠ some '0'

variable {n : Numeral}

theorem takeDigits_append {cs rest : List Char} (hDigits : ∀ c ∈ cs, isDigit c = true)
    (hRest : ∀ c, rest.head? = some c → isDigit c = false) :
    Decimal.takeDigits (cs ++ rest) = (cs, rest) := by
  rw [Decimal.takeDigits, takeWhile_run hDigits hRest, dropWhile_run hDigits hRest]

theorem head_powerText (n : Numeral) : ∀ c, n.powerText.head? = some c → c = 'e' := by
  intro c hc
  unfold powerText at hc
  split at hc
  · simpa [Decimal.exponentText] using hc.symm
  · cases hc

theorem head_fractionText (n : Numeral) :
    ∀ c, (n.fractionText ++ n.powerText).head? = some c → c = '.' ∨ c = 'e' := by
  intro c hc
  unfold fractionText at hc
  split at hc
  · exact .inr (n.head_powerText c (by simpa using hc))
  · exact .inl (by simpa using hc.symm)

theorem readExponent_powerText (n : Numeral) :
    Decimal.readExponent? n.powerText = some (n.exponent.getD 0) := by
  unfold powerText
  cases n.exponent with
  | none => rfl
  | some e =>
    obtain ⟨n, hn⟩ : ∃ n, e.natAbs = n := ⟨_, rfl⟩
    have hDigits : (Nat.toDigits 10 n).all isDigit = true := by
      rw [List.all_eq_true]
      exact fun c hc => Decimal.isDigit_toDigits hc
    have hValue := Decimal.valueOfDigits_toDigits n
    by_cases hNeg : e < 0
    · simp [Decimal.exponentText, Decimal.readExponent?, Decimal.takeSign, hNeg, hn, hDigits,
        hValue]
      omega
    · simp [Decimal.exponentText, Decimal.readExponent?, Decimal.takeSign, hNeg, hn, hDigits,
        hValue]
      omega

/-- A digit comes first after the sign. -/
theorem head_body (hStrict : n.Strict) : ∃ c rest, n.body = c :: rest ∧ isDigit c = true := by
  have hWhole := hStrict.nonempty
  unfold body
  cases hCases : n.whole with
  | nil => exact absurd hCases hWhole
  | cons c rest => exact ⟨c, _, rfl, hStrict.whole c (by simp [hCases])⟩

theorem takeSign_chars (hStrict : n.Strict) : Decimal.takeSign n.chars = (n.negative, n.body) := by
  unfold chars
  cases n.negative with
  | true => rfl
  | false =>
    obtain ⟨c, rest, hBody, hDigit⟩ := head_body hStrict
    simp only [Bool.false_eq_true, if_false, hBody]
    unfold Decimal.takeSign
    split
    · next h =>
      cases h
      exact absurd hDigit (by decide)
    · next h =>
      cases h
      exact absurd hDigit (by decide)
    · rfl

theorem takeDigits_body (hStrict : n.Strict) :
    Decimal.takeDigits n.body = (n.whole, n.fractionText ++ n.powerText) := by
  refine takeDigits_append hStrict.whole fun c hc => ?_
  rcases n.head_fractionText c hc with rfl | rfl <;> decide

/-- Reading a numeral gives its value. -/
theorem ofNumeral_chars (hStrict : n.Strict) : Decimal.ofNumeral? n.chars = some n.value := by
  have hExponent := n.readExponent_powerText
  unfold Decimal.ofNumeral? value
  rw [takeSign_chars hStrict]
  dsimp only
  rw [takeDigits_body hStrict]
  dsimp only
  by_cases hFraction : n.fraction = []
  · have hText : n.fractionText ++ n.powerText = n.powerText := by simp [fractionText, hFraction]
    rw [hText]
    split
    · next h =>
      have hPoint := n.head_powerText '.' (by rw [h]; rfl)
      cases hPoint
    · rw [if_neg hStrict.nonempty, hExponent, hFraction]
      rfl
  · have hText : n.fractionText ++ n.powerText = '.' :: (n.fraction ++ n.powerText) := by
      simp [fractionText, hFraction]
    have hRest : Decimal.takeDigits (n.fraction ++ n.powerText) = (n.fraction, n.powerText) := by
      refine takeDigits_append hStrict.fraction fun c hc => ?_
      rw [n.head_powerText c hc]
      decide
    rw [hText]
    simp [hRest, hStrict.nonempty, hExponent]

end Numeral

/-! ## Written decimals -/

namespace Decimal

theorem head_take {cs : List Char} {k : Nat} (hk : 0 < k) : (cs.take k).head? = cs.head? := by
  cases cs with
  | nil => simp
  | cons c cs =>
    obtain ⟨k, rfl⟩ : ∃ j, k = j + 1 := ⟨k - 1, by omega⟩
    rfl

/-- The text is the body of a strict numeral for the decimal. -/
def Spells (body : List Char) (d : Decimal) : Prop :=
  ∃ n : Numeral, n.negative = d.negative ∧ n.Strict ∧ n.value = d ∧ body = n.body

/-- Digits that spell a number and do not start with a zero. -/
structure LeadingDigits (c : Nat) (ds : List Char) : Prop where
  digits : ∀ x ∈ ds, isDigit x = true
  nonempty : ds ≠ []
  head : ds.head? ≠ some '0'
  value : valueOfDigits ds = c

theorem leadingDigits_toDigits {c : Nat} (hc : 0 < c) : LeadingDigits c (Nat.toDigits 10 c) where
  digits _ hx := isDigit_toDigits hx
  nonempty := by simp
  head := head_toDigits hc
  value := valueOfDigits_toDigits c

section

variable {negative : Bool} {c k : Nat} {e : Int} {x : Char} {ds rest : List Char}

theorem isDigit_of_mem_zeros (hx : x ∈ List.replicate k '0') : isDigit x = true := by
  rw [List.eq_of_mem_replicate hx]
  decide

/-- All digits stand before the point. -/
theorem spells_whole (h : LeadingDigits c ds) (hMod : c % 10 ≠ 0) (k : Nat) :
    Spells (ds ++ List.replicate k '0') ⟨negative, c, k⟩ := by
  refine ⟨⟨negative, ds ++ List.replicate k '0', [], none⟩, rfl, ⟨?_, nofun, ?_, ?_⟩, ?_, ?_⟩
  · intro x hx
    exact (List.mem_append.mp hx).elim (h.digits x) isDigit_of_mem_zeros
  · simp [h.nonempty]
  · exact .inr (by rw [head_append h.nonempty]; exact h.head)
  · have hStripped : normalize ⟨negative, c * 10 ^ k, 0⟩ = ⟨negative, c, 0 + k⟩ :=
      normalize_mul_pow hMod
    rw [Int.zero_add] at hStripped
    simp [Numeral.value, ofDigits, valueOfDigits_append_zeros, h.value, hStripped]
  · simp [Numeral.body, Numeral.fractionText, Numeral.powerText]

/-- The point stands among the digits. -/
theorem spells_point (h : LeadingDigits c ds) (hMod : c % 10 ≠ 0) (hk : 0 < k)
    (hLess : k < ds.length) :
    Spells (ds.take k ++ '.' :: ds.drop k) ⟨negative, c, -((ds.length - k : Nat) : Int)⟩ := by
  have hDrop : ds.drop k ≠ [] := by
    simp
    omega
  have hSame := normalize_of_normal
    (show Normal ⟨negative, c, -((ds.length - k : Nat) : Int)⟩ from .inl hMod)
  refine ⟨⟨negative, ds.take k, ds.drop k, none⟩, rfl, ⟨?_, ?_, ?_, ?_⟩, ?_, ?_⟩
  · exact fun x hx => h.digits x (List.mem_of_mem_take hx)
  · exact fun x hx => h.digits x (List.mem_of_mem_drop hx)
  · simp [h.nonempty]
    omega
  · exact .inr (by rw [head_take hk]; exact h.head)
  · simp only [Numeral.value, ofDigits, List.take_append_drop, h.value, Option.getD_none,
      List.length_drop, Int.zero_sub]
    exact hSame
  · simp [Numeral.body, Numeral.fractionText, Numeral.powerText, hDrop]

/-- Zeros stand between the point and the digits. -/
theorem spells_zeros (h : LeadingDigits c ds) (hMod : c % 10 ≠ 0) (k : Nat) :
    Spells ('0' :: '.' :: List.replicate k '0' ++ ds)
      ⟨negative, c, -((k + ds.length : Nat) : Int)⟩ := by
  have hSame := normalize_of_normal
    (show Normal ⟨negative, c, -((k + ds.length : Nat) : Int)⟩ from .inl hMod)
  refine ⟨⟨negative, ['0'], List.replicate k '0' ++ ds, none⟩, rfl, ⟨?_, ?_, ?_, .inl rfl⟩, ?_, ?_⟩
  · exact fun x hx => isDigit_of_mem_zeros (k := 1) hx
  · intro x hx
    exact (List.mem_append.mp hx).elim isDigit_of_mem_zeros (h.digits x)
  · exact List.cons_ne_nil _ _
  · have hZeros : ['0'] ++ (List.replicate k '0' ++ ds) = List.replicate (k + 1) '0' ++ ds := by
      simp [List.replicate_succ]
    simp only [Numeral.value, ofDigits, hZeros, valueOfDigits_zeros_append, h.value,
      Option.getD_none, List.length_append, List.length_replicate, Int.zero_sub]
    exact hSame
  · simp [Numeral.body, Numeral.fractionText, Numeral.powerText, h.nonempty]

/-- One digit stands before the point, and a power of ten behind the digits. -/
theorem spells_power (h : LeadingDigits c (x :: rest)) (hMod : c % 10 ≠ 0) :
    Spells (x :: ((if rest = [] then [] else '.' :: rest) ++ exponentText (rest.length + e)))
      ⟨negative, c, e⟩ := by
  have hSame := normalize_of_normal (show Normal ⟨negative, c, e⟩ from .inl hMod)
  refine ⟨⟨negative, [x], rest, some (rest.length + e)⟩, rfl, ⟨?_, ?_, ?_, ?_⟩, ?_, rfl⟩
  · simpa using h.digits x List.mem_cons_self
  · exact fun y hy => h.digits y (List.mem_cons_of_mem x hy)
  · exact List.cons_ne_nil _ _
  · exact .inr (by simpa using h.head)
  · have hPlace : (rest.length : Int) + e - rest.length = e := by omega
    simp only [Numeral.value, ofDigits, List.singleton_append, h.value, Option.getD_some, hPlace]
    exact hSame

/-- What is laid out for a coefficient is the body of a strict numeral. -/
theorem spells_layOut (h : LeadingDigits c ds) (hMod : c % 10 ≠ 0) (e : Int) :
    Spells (layOut ds (ds.length + e)) ⟨negative, c, e⟩ := by
  unfold layOut
  dsimp only
  split
  · split
    · obtain ⟨k, rfl⟩ := Int.eq_ofNat_of_zero_le (show 0 ≤ e by omega)
      have hCount : ((ds.length : Int) + k - ds.length).toNat = k := by omega
      rw [hCount]
      exact spells_whole h hMod k
    · split
      · generalize hk : ((ds.length : Int) + e).toNat = k
        obtain rfl : e = -((ds.length - k : Nat) : Int) := by omega
        exact spells_point h hMod (by omega) (by omega)
      · generalize hk : (-((ds.length : Int) + e)).toNat = k
        obtain rfl : e = -((k + ds.length : Nat) : Int) := by omega
        exact spells_zeros h hMod k
  · cases ds with
    | nil => exact absurd rfl h.nonempty
    | cons x rest =>
      have hPlace : (((x :: rest).length : Nat) : Int) + e - 1 = rest.length + e := by
        simp
        omega
      have hPower : Spells _ ⟨negative, c, e⟩ := spells_power h hMod
      rw [hPlace]
      cases rest with
      | nil => exact hPower
      | cons y rest => exact hPower

end

/-- What is written for a normal decimal other than negative zero is a numeral with its value. -/
theorem exists_numeral {d : Decimal} (hd : d.Normal)
    (hSign : d.coefficient = 0 → d.negative = false) :
    ∃ n : Numeral, n.Strict ∧ n.value = d ∧ d.chars = n.chars := by
  obtain ⟨negative, c, e⟩ := d
  by_cases hc : c = 0
  · subst hc
    have he : e = 0 := by
      rcases hd with h | ⟨-, he⟩
      · exact absurd rfl h
      · exact he
    have hNegative : negative = false := hSign rfl
    subst he hNegative
    refine ⟨⟨false, ['0'], [], none⟩, ⟨by simp; decide, by simp, by simp, .inl rfl⟩, rfl, rfl⟩
  · have hMod : c % 10 ≠ 0 := by
      rcases hd with h | ⟨h, -⟩
      · exact h
      · exact absurd h hc
    obtain ⟨n, hSame, hStrict, hValue, hBody⟩ : Spells _ ⟨negative, c, e⟩ :=
      spells_layOut (leadingDigits_toDigits (Nat.pos_of_ne_zero hc)) hMod e
    refine ⟨n, hStrict, hValue, ?_⟩
    unfold chars Numeral.chars
    rw [if_neg hc, hSame]
    dsimp only
    rw [hBody]

end Decimal

end Tern
