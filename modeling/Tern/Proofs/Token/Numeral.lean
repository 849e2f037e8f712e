import Mathlib.Tactic.TFAE
import Tern.Proofs.Decimal.Grammar
import Tern.Proofs.Token.Lexeme
import Tern.Proofs.Token.Position

/-!
# Numbers in sources

A number in a source is digits, with a point and digits behind it or not. That is a numeral without
a sign, a power of ten and blanks. So a program that converts the text of such a number to a number
gets what the number in the source stands for.

* `Lexeme.number_cases`: what a number in a source looks like;
* `Lexeme.parse_number`: its text denotes what it stands for;
* `Number.parse_numeral`: which texts can be converted, and to what.
-/

namespace Tern

open Decimal Grammar

variable {chars : List Char} {literal : Option Literal}

namespace Lexeme

/-- A number in a source is digits, or digits on both sides of a point. -/
theorem number_cases (h : Lexeme .number chars literal) :
    literal = some (.number (Token.numberOf chars)) ∧
      (chars ∈ digits ∨ ∃ ds ∈ digits, ∃ es ∈ digits, chars = ds ++ '.' :: es) := by
  cases h with
  | symbol known => exact absurd known (by decide)
  | keyword known => exact absurd known (by decide)
  | whole some_digit all_digits => exact ⟨rfl, .inl (mem_digits.mpr ⟨some_digit, all_digits⟩)⟩
  | fraction some_digit all_digits some_place places =>
    exact ⟨rfl, .inr ⟨_, mem_digits.mpr ⟨some_digit, all_digits⟩, _,
      mem_digits.mpr ⟨some_place, places⟩, rfl⟩⟩

theorem mem_numeral (h : Lexeme .number chars literal) : chars ∈ numeral := by
  have hMantissa : chars ∈ mantissa := by
    obtain ⟨-, hWhole | ⟨ds, hWhole, es, hPlaces, rfl⟩⟩ := h.number_cases
    · exact .inl ⟨chars, hWhole, [], .inl rfl, chars.append_nil⟩
    · have hFraction : '.' :: es ∈ Grammar.fraction :=
        .inr (cons_mem_letter_mul.mpr ⟨rfl, mem_kstar_letter.mpr (mem_digits.mp hPlaces).2⟩)
      exact .inl ⟨ds, hWhole, '.' :: es, hFraction, rfl⟩
  exact ⟨[], .inl rfl, chars, ⟨chars, hMantissa, [], .inl rfl, chars.append_nil⟩, rfl⟩

/-- The text of a number in a source denotes what the number stands for. -/
theorem parse_number (h : Lexeme .number chars literal) :
    ∃ x, literal = some (.number x) ∧ Number.parse? (String.ofList chars) = some x := by
  have hNumeral := h.mem_numeral
  obtain ⟨d, hRead⟩ := Option.isSome_iff_exists.mp (isSome_ofNumeral_iff.mpr hNumeral)
  refine ⟨d.toFloat, ?_, ?_⟩
  · rw [h.number_cases.1, Token.numberOf, hRead]
    rfl
  · rw [Number.parse?, String.toList_ofList, trimChars_numeral hNumeral, hRead]
    rfl

end Lexeme

theorem TokenStream.parse_number (source : String) : ∀ t ∈ (ofSource source).tokens,
    t.kind = .number → ∃ x, t.literal = some (.number x) ∧ Number.parse? t.lexeme = some x := by
  refine each_ofSource source (fun kind c cs more pos hPiece _ hKind => ?_) fun pos _ hKind => ?_
  · obtain rfl : kind = .number := hKind
    exact (Piece.longest_of_classify hPiece).lexeme.parse_number
  · cases hKind

namespace Number

/-- Which texts are converted to numbers, and to what. A text can be converted if it is a numeral
once the blanks at its ends are cut off, which is to say a numeral between blanks. It denotes what
it stands for as a text, and more blanks at its ends change nothing. The text of a number in a
source denotes what the number stands for. -/
theorem parse_numeral :
    (∀ text : String, [(parse? text).isSome = true, Text.trimChars text.toList ∈ numeral,
      text.toList ∈ blanks * numeral * blanks].TFAE) ∧
    (∀ text x, parse? text = some x → x = ofText text) ∧
    (∀ before text after : String, before.toList ∈ blanks → after.toList ∈ blanks →
      parse? (before ++ text ++ after) = parse? text) ∧
    ∀ source, ∀ t ∈ (TokenStream.ofSource source).tokens, t.kind = .number →
      ∃ x, t.literal = some (.number x) ∧ parse? t.lexeme = some x := by
  refine ⟨fun text => ?accepts, fun text x => parse_eq_ofText,
    fun before text after hBefore hAfter => ?blanks, TokenStream.parse_number⟩
  case accepts =>
    tfae_have 1 ↔ 2 := isSome_parse_iff
    tfae_have 2 ↔ 3 := trimChars_mem_numeral_iff
    tfae_finish
  case blanks =>
    rw [parse?, parse?, String.toList_append, String.toList_append,
      Text.trimChars_append (mem_kstar_letter.mp hBefore) (mem_kstar_letter.mp hAfter)]

/-- A sign, no digit before the point and an exponent; no digit behind the point, and blanks that
are no ASCII; and a number in a source that ends before its second point. -/
theorem parse_numeral_samples :
    (∃ x, parse? "+.5e-01" = some x ∧ x = ofText "+.5e-01") ∧
    parse? ("\u00a0" ++ "1." ++ "\uFEFF\n") = parse? "1." ∧
    ∃ t ∈ (TokenStream.ofSource "1.5.e3").tokens, t.lexeme = "1.5" ∧
      ∃ x, t.literal = some (.number x) ∧ parse? "1.5" = some x := by
  obtain ⟨accepts, denotes, insensitive, lexemes⟩ := parse_numeral
  refine ⟨?_, ?_, ?_⟩
  · have hSome : (parse? "+.5e-01").isSome = true := ((accepts _).out 0 1).mpr (by decide)
    obtain ⟨x, hx⟩ := Option.isSome_iff_exists.mp hSome
    exact ⟨x, hx, denotes _ x hx⟩
  · exact insensitive _ _ _ (mem_kstar_letter.mpr (List.all_eq_true.mp rfl))
      (mem_kstar_letter.mpr (List.all_eq_true.mp rfl))
  · have hFirst : (TokenStream.ofSource "1.5.e3").tokens.head?.map (fun t => (t.kind, t.lexeme)) =
        some (.number, "1.5") := by decide +kernel
    obtain ⟨t, hHead, hFace⟩ := Option.map_eq_some_iff.mp hFirst
    obtain ⟨hKind, hLexeme⟩ := Prod.mk.inj hFace
    have hMem := List.mem_of_head? hHead
    exact ⟨t, hMem, hLexeme, hLexeme ▸ lexemes _ t hMem hKind⟩

end Number

end Tern
