import Mathlib.Computability.Language
import Mathlib.Order.CompletePartialOrder
import Tern.Proofs.Decimal.Numeral
import Tern.Proofs.Text.Blank

/-!
# The grammar of numerals

Which texts are numerals, told without a reader: an optional sign, digits with an optional point
among or behind them or a point before them, and an optional power of ten. The reader takes a sign
and each row of digits as far as they go. Nothing is lost by that, because no part of a numeral
begins with a character that could belong to the part before it.

* `Decimal.Grammar.numeral`: the numerals;
* `Decimal.Grammar.mem_sign_mul`, `Decimal.Grammar.mem_digits_mul`: taking a sign or a row of
  digits as far as it goes;
* `Decimal.isSome_ofNumeral_iff`: the reader accepts the numerals and nothing else;
* `Decimal.Grammar.trimChars_mem_numeral_iff`: numerals between blanks;
* `Number.parse_eq_ofText`: a numeral denotes what it stands for as a text.
-/

namespace Tern

namespace Decimal

namespace Grammar

open Computability

/-! ## The language -/

/-- The words that are one character of a kind. -/
def letter (p : Char → Prop) : Language Char := {cs | ∃ c, p c ∧ cs = [c]}

/-- A decimal digit. -/
def digit : Language Char := letter (isDigit · = true)

/-- One digit or more. -/
def digits : Language Char := digit * digit∗

/-- An optional sign. -/
def sign : Language Char := 1 + letter fun c => c = '+' ∨ c = '-'

/-- The decimal point. -/
def point : Language Char := letter (· = '.')

/-- An optional point, with digits behind it or none. -/
def fraction : Language Char := 1 + point * digit∗

/-- Digits and what may follow them, or a point and digits. -/
def mantissa : Language Char := digits * fraction + point * digits

/-- An optional power of ten. -/
def power : Language Char := 1 + letter (fun c => c = 'e' ∨ c = 'E') * (sign * digits)

/-- The numerals. -/
def numeral : Language Char := sign * (mantissa * power)

/-- Blanks, or nothing. -/
def blanks : Language Char := (letter (Text.isBlank · = true))∗

variable {p : Char → Prop} {L : Language Char} {c : Char} {cs : List Char}

theorem mem_letter_mul : cs ∈ letter p * L ↔ ∃ c rest, cs = c :: rest ∧ p c ∧ rest ∈ L := by
  rw [Language.mem_mul]
  constructor
  · rintro ⟨_, ⟨c, hc, rfl⟩, rest, hRest, rfl⟩
    exact ⟨c, rest, rfl, hc, hRest⟩
  · rintro ⟨c, rest, rfl, hc, hRest⟩
    exact ⟨[c], ⟨c, hc, rfl⟩, rest, hRest, rfl⟩

theorem cons_mem_letter_mul : c :: cs ∈ letter p * L ↔ p c ∧ cs ∈ L := by
  rw [mem_letter_mul]
  constructor
  · rintro ⟨d, rest, hSame, hd, hRest⟩
    cases hSame
    exact ⟨hd, hRest⟩
  · exact fun ⟨hc, hRest⟩ => ⟨c, cs, rfl, hc, hRest⟩

theorem mem_kstar_letter : cs ∈ (letter p)∗ ↔ ∀ c ∈ cs, p c := by
  rw [Language.mem_kstar]
  constructor
  · rintro ⟨rows, rfl, hRows⟩ c hc
    obtain ⟨row, hRow, hMem⟩ := List.mem_flatten.mp hc
    obtain ⟨d, hd, rfl⟩ := hRows row hRow
    rwa [List.mem_singleton.mp hMem]
  · intro hAll
    refine ⟨cs.map ([·]), List.flatMap_singleton' cs |>.symm, fun row hRow => ?_⟩
    obtain ⟨c, hc, rfl⟩ := List.mem_map.mp hRow
    exact ⟨c, hAll c hc, rfl⟩

theorem mem_digits : cs ∈ digits ↔ cs ≠ [] ∧ ∀ c ∈ cs, isDigit c = true := by
  cases cs with
  | nil =>
    refine iff_of_false (fun hMem => ?_) fun h => h.1 rfl
    obtain ⟨c, rest, hSame, -⟩ := mem_letter_mul.mp hMem
    cases hSame
  | cons c cs =>
    rw [digits, digit, cons_mem_letter_mul, mem_kstar_letter, List.forall_mem_cons]
    exact (and_iff_right (List.cons_ne_nil c cs)).symm

/-! ## Parts taken as far as they go -/

/-- No word of the language begins with a character of the kind. -/
def Avoids (p : Char → Prop) (L : Language Char) : Prop :=
  ∀ cs ∈ L, ∀ c, cs.head? = some c → ¬p c

theorem mem_sign_mul (hL : Avoids (fun c => c = '+' ∨ c = '-') L) :
    cs ∈ sign * L ↔ (takeSign cs).2 ∈ L := by
  unfold sign
  rw [add_mul, one_mul, Language.mem_add]
  unfold takeSign
  split
  · rw [cons_mem_letter_mul, or_iff_right fun h => hL _ h '-' rfl (.inr rfl)]
    exact and_iff_right (.inr rfl)
  · rw [cons_mem_letter_mul, or_iff_right fun h => hL _ h '+' rfl (.inl rfl)]
    exact and_iff_right (.inl rfl)
  · next hMinus hPlus =>
    refine or_iff_left fun hSigned => ?_
    obtain ⟨c, rest, rfl, rfl | rfl, -⟩ := mem_letter_mul.mp hSigned
    · exact hPlus rest rfl
    · exact hMinus rest rfl

theorem takeDigits_digits (cs : List Char) : ∀ c ∈ (takeDigits cs).1, isDigit c = true :=
  List.all_eq_true.mp List.all_takeWhile

theorem takeDigits_append (cs : List Char) : (takeDigits cs).1 ++ (takeDigits cs).2 = cs :=
  List.takeWhile_append_dropWhile

theorem takeDigits_of_avoids (hL : Avoids (isDigit · = true) L) {ds rest : List Char}
    (hDigits : ∀ c ∈ ds, isDigit c = true) (hRest : rest ∈ L) :
    takeDigits (ds ++ rest) = (ds, rest) :=
  Numeral.takeDigits_append hDigits fun c hc => Bool.not_eq_true _ ▸ hL rest hRest c hc

theorem mem_kstar_digit_mul (hL : Avoids (isDigit · = true) L) :
    cs ∈ digit∗ * L ↔ (takeDigits cs).2 ∈ L := by
  rw [Language.mem_mul]
  constructor
  · rintro ⟨ds, hDigits, rest, hRest, rfl⟩
    rwa [takeDigits_of_avoids hL (mem_kstar_letter.mp hDigits) hRest]
  · intro hRest
    exact ⟨_, mem_kstar_letter.mpr (takeDigits_digits cs), _, hRest, takeDigits_append cs⟩

theorem mem_digits_mul (hL : Avoids (isDigit · = true) L) :
    cs ∈ digits * L ↔ (takeDigits cs).1 ≠ [] ∧ (takeDigits cs).2 ∈ L := by
  rw [Language.mem_mul]
  constructor
  · rintro ⟨ds, hDigits, rest, hRest, rfl⟩
    obtain ⟨hNonempty, hAll⟩ := mem_digits.mp hDigits
    rw [takeDigits_of_avoids hL hAll hRest]
    exact ⟨hNonempty, hRest⟩
  · rintro ⟨hNonempty, hRest⟩
    exact ⟨_, mem_digits.mpr ⟨hNonempty, takeDigits_digits cs⟩, _, hRest, takeDigits_append cs⟩

/-! ## What the parts begin with -/

theorem avoids_sign_of_digits : Avoids (fun c => c = '+' ∨ c = '-') digits := by
  rintro cs hcs c hHead (rfl | rfl)
  · exact nomatch (mem_digits.mp hcs).2 _ (List.mem_of_head? hHead)
  · exact nomatch (mem_digits.mp hcs).2 _ (List.mem_of_head? hHead)

theorem avoids_digit_of_power : Avoids (isDigit · = true) power := by
  rintro cs (rfl | hMark) c hHead
  · cases hHead
  · obtain ⟨d, rest, rfl, rfl | rfl, -⟩ := mem_letter_mul.mp hMark
    all_goals
      cases hHead
      decide

theorem point_notMem_power {rest : List Char} : '.' :: rest ∉ power := by
  rintro (hNil | hMark)
  · cases hNil
  · exact absurd (cons_mem_letter_mul.mp hMark).1 (by decide)

/-- What follows the digits that begin a numeral: a point and more digits or not, and a power. -/
theorem mem_fraction_mul : cs ∈ fraction * power ↔
    cs ∈ power ∨ ∃ rest, cs = '.' :: rest ∧ (takeDigits rest).2 ∈ power := by
  unfold fraction
  rw [add_mul, one_mul, mul_assoc, Language.mem_add, point, mem_letter_mul]
  simp only [mem_kstar_digit_mul avoids_digit_of_power]
  refine or_congr_right ⟨?_, fun ⟨rest, hSame, hPower⟩ => ⟨'.', rest, hSame, rfl, hPower⟩⟩
  rintro ⟨_, rest, rfl, rfl, hPower⟩
  exact ⟨rest, rfl, hPower⟩

theorem avoids_digit_of_fraction : Avoids (isDigit · = true) (fraction * power) := by
  intro cs hcs c hHead
  rcases mem_fraction_mul.mp hcs with hPower | ⟨rest, rfl, -⟩
  · exact avoids_digit_of_power cs hPower c hHead
  · cases hHead
    decide

/-- A numeral without its sign: what may follow its first digits, if it has some. -/
theorem mem_mantissa_mul : cs ∈ mantissa * power ↔
    ((takeDigits cs).1 ≠ [] ∧ (takeDigits cs).2 ∈ fraction * power) ∨
      (takeDigits cs).1 = [] ∧ ∃ rest, (takeDigits cs).2 = '.' :: rest ∧
        (takeDigits rest).1 ≠ [] ∧ (takeDigits rest).2 ∈ power := by
  unfold mantissa
  rw [add_mul, mul_assoc, mul_assoc point, Language.mem_add,
    mem_digits_mul avoids_digit_of_fraction, point, mem_letter_mul]
  simp only [mem_digits_mul avoids_digit_of_power]
  refine or_congr_right ⟨?_, ?_⟩
  · rintro ⟨_, rest, rfl, rfl, hRest⟩
    exact ⟨rfl, rest, rfl, hRest⟩
  · rintro ⟨hNone, rest, hSame, hRest⟩
    have hWhole := takeDigits_append cs
    rw [hNone, hSame, List.nil_append] at hWhole
    exact ⟨'.', rest, hWhole.symm, rfl, hRest⟩

theorem avoids_sign_of_mantissa : Avoids (fun c => c = '+' ∨ c = '-') (mantissa * power) := by
  rintro (_ | ⟨c, rest⟩) hcs _ hHead hSign
  · cases hHead
  · cases hHead
    have hOther : ¬isDigit c = true := by rcases hSign with rfl | rfl <;> decide
    have hNone : takeDigits (c :: rest) = ([], c :: rest) := by
      rw [takeDigits, List.takeWhile_cons_of_neg hOther, List.dropWhile_cons_of_neg hOther]
    rw [mem_mantissa_mul, hNone] at hcs
    obtain ⟨hDigits, -⟩ | ⟨-, after, hPoint, -⟩ := hcs
    · exact hDigits rfl
    · cases hPoint
      exact absurd hSign (by decide)

end Grammar

/-! ## The reader -/

open Grammar

variable {cs : List Char}

theorem isSome_readExponent_iff : (readExponent? cs).isSome = true ↔ cs ∈ power := by
  unfold power
  rw [Language.mem_add, Language.mem_one]
  cases cs with
  | nil => exact iff_of_true rfl (.inl rfl)
  | cons c cs =>
    rw [or_iff_right (List.cons_ne_nil c cs), cons_mem_letter_mul,
      mem_sign_mul avoids_sign_of_digits, mem_digits, readExponent?]
    by_cases hMark : c = 'e' ∨ c = 'E'
    · by_cases hDigits : (takeSign cs).2 ≠ [] ∧ ∀ x ∈ (takeSign cs).2, isDigit x = true
      · simp [hMark, hDigits]
      · simp [hMark]
    · simp [hMark]

/-- The reader accepts the numerals and nothing else. -/
theorem isSome_ofNumeral_iff : (ofNumeral? cs).isSome = true ↔ cs ∈ numeral := by
  unfold numeral ofNumeral?
  rw [mem_sign_mul avoids_sign_of_mantissa, mem_mantissa_mul]
  generalize takeSign cs = signed
  obtain ⟨negative, cs⟩ := signed
  dsimp only
  generalize takeDigits cs = parts
  obtain ⟨whole, rest⟩ := parts
  dsimp only
  split
  · next after =>
    -- of the digits before and behind the point one row may be empty
    have hRest : '.' :: after ∈ fraction * power ↔ (takeDigits after).2 ∈ power := by
      simp [mem_fraction_mul, point_notMem_power]
    by_cases hWhole : whole = []
    · by_cases hFraction : (takeDigits after).1 = []
      · simp [hWhole, hFraction]
      · simp [hWhole, hFraction, isSome_readExponent_iff]
    · simp [hWhole, hRest, isSome_readExponent_iff]
  · next hPoint =>
    have hRest : rest ∈ fraction * power ↔ rest ∈ power :=
      mem_fraction_mul.trans (or_iff_left fun ⟨after, hSame, _⟩ => hPoint after hSame)
    by_cases hWhole : whole = []
    · refine iff_of_false (by simp [hWhole]) ?_
      rintro (⟨hDigits, -⟩ | ⟨-, after, hSame, -⟩)
      · exact hDigits hWhole
      · exact hPoint after hSame
    · simp [hWhole, hRest, isSome_readExponent_iff]

instance : DecidablePred (· ∈ numeral) := fun _ => decidable_of_iff _ isSome_ofNumeral_iff

example : "-1.e+05".toList ∈ numeral ∧ "1.5e".toList ∉ numeral ∧ ".".toList ∉ numeral := by decide

end Decimal

/-! ## Blanks around a numeral -/

theorem Text.isBlank_of_isDigit {c : Char} (h : isDigit c = true) : isBlank c = false := by
  have hRange : '0'.toNat ≤ c.toNat ∧ c.toNat ≤ '9'.toNat := by
    simpa [isDigit, Char.le_def, UInt32.le_iff_toNat_le] using h
  have hLow : '0'.toNat = 0x30 := rfl
  have hHigh : '9'.toNat = 0x39 := rfl
  simp only [isBlank, Bool.or_eq_false_iff, Bool.and_eq_false_iff, decide_eq_false_iff_not,
    beq_eq_false_iff_ne]
  omega

namespace Decimal.Grammar

open Computability

theorem letter_le {p q : Char → Prop} (h : ∀ c, p c → q c) : letter p ≤ letter q :=
  fun _ ⟨c, hc, hSame⟩ => ⟨c, h c hc, hSame⟩

theorem mul_le_kstar {K L M : Language Char} (hL : L ≤ K∗) (hM : M ≤ K∗) : L * M ≤ K∗ :=
  (mul_le_mul' hL hM).trans (kstar_mul_kstar K).le

/-- A character that is no blank. -/
def visible : Language Char := letter (Text.isBlank · = false)

/-- There is no blank in a numeral. -/
theorem numeral_le : numeral ≤ visible∗ := by
  have hLetter : ∀ {p : Char → Prop}, (∀ c, p c → Text.isBlank c = false) → letter p ≤ visible∗ :=
    fun h => (letter_le h).trans le_kstar
  have hRow : digit∗ ≤ visible∗ := kstar_mono (letter_le fun _ => Text.isBlank_of_isDigit)
  have hDigits : digits ≤ visible∗ :=
    mul_le_kstar (hLetter fun _ => Text.isBlank_of_isDigit) hRow
  have hPoint : point ≤ visible∗ := hLetter (by rintro _ rfl; rfl)
  have hSign : sign ≤ visible∗ :=
    add_le one_le_kstar (hLetter (by rintro _ (rfl | rfl) <;> decide))
  have hMantissa : mantissa ≤ visible∗ :=
    add_le (mul_le_kstar hDigits (add_le one_le_kstar (mul_le_kstar hPoint hRow)))
      (mul_le_kstar hPoint hDigits)
  have hPower : power ≤ visible∗ :=
    add_le one_le_kstar (mul_le_kstar (hLetter (by rintro _ (rfl | rfl) <;> decide))
      (mul_le_kstar hSign hDigits))
  exact mul_le_kstar hSign (mul_le_kstar hMantissa hPower)

/-- A numeral stays when blanks are cut off it. -/
theorem trimChars_numeral {cs : List Char} (h : cs ∈ numeral) : Text.trimChars cs = cs :=
  Text.trimChars_of_notBlank (mem_kstar_letter.mp (numeral_le h))

/-- A text is a numeral without the blanks at its ends if it is a numeral between blanks. -/
theorem trimChars_mem_numeral_iff {cs : List Char} :
    Text.trimChars cs ∈ numeral ↔ cs ∈ blanks * numeral * blanks := by
  constructor
  · intro hNumeral
    obtain ⟨before, after, hSame, hBefore, hAfter⟩ := Text.exists_trimChars cs
    rw [hSame]
    exact ⟨_, ⟨before, mem_kstar_letter.mpr hBefore, _, hNumeral, rfl⟩, after,
      mem_kstar_letter.mpr hAfter, rfl⟩
  · rintro ⟨_, ⟨before, hBefore, core, hNumeral, rfl⟩, after, hAfter, rfl⟩
    have hTrim : Text.trimChars (before ++ core ++ after) = core :=
      (Text.trimChars_append (mem_kstar_letter.mp hBefore) (mem_kstar_letter.mp hAfter)).trans
        (trimChars_numeral hNumeral)
    change Text.trimChars (before ++ core ++ after) ∈ numeral
    rwa [hTrim]

end Decimal.Grammar

namespace Number

open Decimal Grammar

variable {cs : List Char} {text : String} {x : Float}

/-- The reader of doubles accepts the numerals, blanks around them aside. -/
theorem isSome_parse_iff :
    (parse? text).isSome = true ↔ Text.trimChars text.toList ∈ numeral := by
  rw [parse?, Option.isSome_map, isSome_ofNumeral_iff]

theorem ofBased_of_numeral (h : cs ∈ numeral) : ofBased? cs = none := by
  have hSome := isSome_ofNumeral_iff.mpr h
  unfold ofBased?
  split
  · next c ds =>
    cases hBase : baseOf? c with
    | none => rfl
    | some base =>
      have hNone : ofNumeral? ('0' :: c :: ds) = none := by
        unfold baseOf? at hBase
        split at hBase
        all_goals first
          | rfl
          | cases hBase
      rw [hNone] at hSome
      cases hSome
  · rfl

theorem ofWord_of_numeral (h : cs ∈ numeral) : ofWord? cs = none := by
  have hSome := isSome_ofNumeral_iff.mpr h
  unfold ofNumeral? at hSome
  unfold ofWord?
  generalize takeSign cs = signed at hSome ⊢
  obtain ⟨negative, word⟩ := signed
  dsimp only
  split
  · next hWord =>
    subst hWord
    cases hSome
  · rfl

/-- What a numeral denotes is what it stands for as a text: it chooses no other base and is not the
word for infinity. -/
theorem parse_eq_ofText (h : parse? text = some x) : x = ofText text := by
  have hNumeral := isSome_parse_iff.mp (Option.isSome_of_eq_some h)
  have hNonempty : Text.trimChars text.toList ≠ [] := by
    rintro hEmpty
    rw [hEmpty] at hNumeral
    exact absurd hNumeral (by decide)
  unfold ofText
  rw [if_neg hNonempty, ofBased_of_numeral hNumeral, ofWord_of_numeral hNumeral, h]
  rfl

end Number

end Tern
