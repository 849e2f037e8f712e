import Mathlib.Data.String.Basic
import Tern.Text.Units

/-!
# Strings as code units

A string is spelled out in code units in one way only, since reading the units back gives the
string again. Strings are ordered like their units, as words are in a dictionary; so of two
different strings one comes before the other. That is not quite the order of their characters: a
character that is a pair of surrogates comes before those from U+E000 to U+FFFF, which have greater
units but smaller numbers. Where every character is one unit, the two orders are the same.

* `Text.decodeUnits_codeUnits`: units are read back;
* `Text.codeUnits_injective`: different strings have different units;
* `Text.before_trichotomy`, `Text.before_trans`, `Text.before_asymm`: the order is strict and total;
* `Text.before_iff_lt`: it is the order of the characters where all of them are one unit.
-/

namespace Tern.Text

variable {a b c : String}

/-! ## Reading units back -/

theorem decodeUnits_encode (c : Char) (us : List Nat) :
    decodeUnits (encode c ++ us) = c :: decodeUnits us := by
  have hValid : c.toNat < 0xD800 ∨ 0xDFFF < c.toNat ∧ c.toNat < 0x110000 := c.valid
  have hSelf : Char.ofNat c.toNat = c := Char.ofNat_toNat c
  unfold encode
  split
  · next hSmall =>
    have hHigh : isHigh c.toNat = false := by simp [isHigh]; omega
    have hLow : isLow c.toNat = false := by simp [isLow]; omega
    have hUnit : ofUnit c.toNat = c := by simp [ofUnit, hHigh, hLow, hSelf]
    cases us with
    | nil => simp [decodeUnits, hUnit]
    | cons v rest => simp [decodeUnits, hHigh, hUnit]
  · next hLarge =>
    have hHigh : isHigh (0xD800 + (c.toNat - 0x10000) / 0x400) = true := by
      simp [isHigh]
      omega
    have hLow : isLow (0xDC00 + (c.toNat - 0x10000) % 0x400) = true := by
      simp [isLow]
      omega
    have hBack : 0x10000 + (0xD800 + (c.toNat - 0x10000) / 0x400 - 0xD800) * 0x400 +
        (0xDC00 + (c.toNat - 0x10000) % 0x400 - 0xDC00) = c.toNat := by
      omega
    simp only [List.cons_append, List.nil_append, decodeUnits, hHigh, hLow, Bool.and_self, if_true]
    rw [ofPair, hBack, hSelf]

theorem decodeUnits_codeUnits (s : String) : decodeUnits (codeUnits s) = s.toList := by
  unfold codeUnits
  induction s.toList with
  | nil => rfl
  | cons c cs ih => rw [List.flatMap_cons, decodeUnits_encode, ih]

theorem codeUnits_injective : Function.Injective codeUnits := by
  intro a b hSame
  have hChars : a.toList = b.toList := by
    rw [← decodeUnits_codeUnits a, hSame, decodeUnits_codeUnits]
  exact String.toList_injective hChars

/-! ## Units of characters -/

theorem encode_lt (c : Char) : ∀ u ∈ encode c, u < 0x10000 := by
  have hValid : c.toNat < 0xD800 ∨ 0xDFFF < c.toNat ∧ c.toNat < 0x110000 := c.valid
  intro u hu
  unfold encode at hu
  split at hu
  · next hSmall =>
    rw [List.mem_singleton.mp hu]
    exact hSmall
  · simp only [List.mem_cons, List.not_mem_nil, or_false] at hu
    omega

theorem codeUnits_lt (s : String) : ∀ u ∈ codeUnits s, u < 0x10000 := by
  intro u hu
  obtain ⟨c, -, hc⟩ := List.mem_flatMap.mp hu
  exact encode_lt c u hc

theorem toNat_ofNat {n : Nat} (h : n.isValidChar) : (Char.ofNat n).toNat = n := by
  rw [Char.ofNat, dif_pos h]
  rfl

/-- A unit that is no half of a pair is a character. -/
theorem encode_ofNat {u : Nat} (hSmall : u < 0x10000) (hHigh : isHigh u = false)
    (hLow : isLow u = false) : encode (Char.ofNat u) = [u] := by
  have hOutside : u < 0xD800 ∨ 0xDFFF < u := by
    simp only [isHigh, isLow, Bool.and_eq_false_iff, decide_eq_false_iff_not] at hHigh hLow
    omega
  have hValid : u.isValidChar := by
    rcases hOutside with h | h
    · exact .inl h
    · exact .inr ⟨h, by omega⟩
  rw [encode, toNat_ofNat hValid, if_pos hSmall]

/-- Two halves that fit are the pair of one character. -/
theorem encode_ofPair {u v : Nat} (hHigh : isHigh u = true) (hLow : isLow v = true) :
    encode (ofPair u v) = [u, v] := by
  simp only [isHigh, isLow, Bool.and_eq_true, decide_eq_true_eq] at hHigh hLow
  have hSelf : (ofPair u v).toNat = 0x10000 + (u - 0xD800) * 0x400 + (v - 0xDC00) := by
    rw [ofPair, toNat_ofNat (.inr ⟨by omega, by omega⟩)]
  rw [encode, hSelf, if_neg (by omega)]
  have hFirst : 0xD800 + (0x10000 + (u - 0xD800) * 0x400 + (v - 0xDC00) - 0x10000) / 0x400 = u := by
    omega
  have hSecond :
      0xDC00 + (0x10000 + (u - 0xD800) * 0x400 + (v - 0xDC00) - 0x10000) % 0x400 = v := by
    omega
  rw [hFirst, hSecond]

/-! ## The order -/

theorem before_iff : before a b = true ↔ codeUnits a < codeUnits b := decide_eq_true_iff

theorem before_asymm (h : before a b = true) : ¬before b a = true := by
  rw [before_iff] at h ⊢
  exact lt_asymm h

theorem before_trans (hab : before a b = true) (hbc : before b c = true) : before a c = true := by
  rw [before_iff] at hab hbc ⊢
  exact lt_trans hab hbc

/-- Of two different strings one comes before the other. -/
theorem before_trichotomy (a b : String) : before a b = true ∨ a = b ∨ before b a = true := by
  rw [before_iff, before_iff]
  rcases lt_trichotomy (codeUnits a) (codeUnits b) with hBefore | hSame | hBehind
  · exact .inl hBefore
  · exact .inr (.inl (codeUnits_injective hSame))
  · exact .inr (.inr hBehind)

theorem before_eq_false_iff : before b a = false ↔ before a b = true ∨ a = b := by
  rw [← Bool.not_eq_true, before_iff, before_iff, not_lt, le_iff_lt_or_eq,
    codeUnits_injective.eq_iff]

/-! ## Characters of one unit -/

theorem codeUnits_of_single {s : String} (h : ∀ c ∈ s.toList, c.toNat ≤ 0xFFFF) :
    codeUnits s = s.toList.map Char.toNat := by
  unfold codeUnits
  generalize s.toList = cs at h
  induction cs with
  | nil => rfl
  | cons c cs ih =>
    obtain ⟨hFirst, hRest⟩ := List.forall_mem_cons.mp h
    rw [List.flatMap_cons, encode, if_pos (Nat.lt_succ_of_le hFirst), ih hRest]
    rfl

/-- Where every character is one unit, strings are ordered by the numbers of their characters. -/
theorem before_iff_lt (ha : ∀ c ∈ a.toList, c.toNat ≤ 0xFFFF)
    (hb : ∀ c ∈ b.toList, c.toNat ≤ 0xFFFF) : before a b = true ↔ a < b := by
  have hNumbers : StrictMono (List.map Char.toNat) :=
    fun _ _ hLess => List.map_lt (fun _ _ h => h) hLess
  rw [before_iff, codeUnits_of_single ha, codeUnits_of_single hb, hNumbers.lt_iff_lt,
    String.lt_iff_toList_lt]

example : before "😀" "\uE000" = true ∧ "\uE000" < "😀" := by decide

end Tern.Text
