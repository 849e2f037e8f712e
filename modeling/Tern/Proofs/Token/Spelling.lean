import Tern.Token.Lexer

/-!
# Words that are names

A word becomes an identifier only if it is no keyword, so no identifier of a source is spelled
like a keyword.

* `TokenStream.spelled_ofSource`: the identifiers of a source are names.
-/

namespace Tern

/-- An identifier is spelled like a name and not like a keyword. -/
def Token.Spelled (t : Token) : Prop :=
  t.kind = .identifier → TokenKind.ofWord t.lexeme = .identifier

/-- A word is a keyword or an identifier. -/
theorem TokenKind.ofWord_ne {k : TokenKind} {word : String} (hKeyword : k ∉ keywords)
    (hIdentifier : k ≠ .identifier) : ofWord word ≠ k := by
  unfold ofWord
  cases hFind : keywords.find? fun k => k.text == word with
  | none => exact fun h => hIdentifier h.symm
  | some k' =>
    rintro rfl
    exact hKeyword (List.mem_of_find?_eq_some hFind)

namespace Piece

variable {k : TokenKind} {cs : List Char} {more : Nat}

theorem orEqual_ne {short long : TokenKind} (hShort : short ≠ k) (hLong : long ≠ k) :
    orEqual short long cs ≠ lexeme k more := by
  unfold orEqual
  split <;> simp [hShort, hLong]

theorem doubled_ne {kind : TokenKind} {c : Char} (hKind : kind ≠ k) :
    doubled kind c cs ≠ lexeme k more := by
  unfold doubled
  split
  · split <;> simp [hKind]
  · simp

theorem ofSlash_ne (hKind : .slash ≠ k) : ofSlash cs ≠ lexeme k more := by
  unfold ofSlash
  split
  · simp
  · split <;> simp
  · simp [hKind]

theorem ofQuote_ne (hKind : .string ≠ k) : ofQuote cs ≠ lexeme k more := by
  unfold ofQuote
  split <;> simp [hKind]

theorem take_length_takeWhile {α : Type} (p : α → Bool) (cs : List α) :
    cs.take (cs.takeWhile p).length = cs.takeWhile p :=
  List.prefix_iff_eq_take.mp (List.takeWhile_prefix p) |>.symm

theorem ofOther_identifier {c : Char} (h : ofOther c cs = lexeme .identifier more) :
    TokenKind.ofWord (String.ofList (c :: cs.take more)) = .identifier := by
  unfold ofOther at h
  split at h
  · simp at h
  · split at h
    · simp only [lexeme.injEq] at h
      obtain ⟨hKind, hMore⟩ := h
      rw [← hMore, take_length_takeWhile]
      exact hKind
    · simp at h

/-- Only a word can be an identifier, and then it is no keyword. -/
theorem classify_identifier {c : Char} (h : classify c cs = lexeme .identifier more) :
    TokenKind.ofWord (String.ofList (c :: cs.take more)) = .identifier := by
  unfold classify at h
  split at h
  · simp at h
  · split at h
    all_goals first
      | exact ofOther_identifier h
      | exact absurd h (by simp)
      | exact absurd h (ofSlash_ne (by decide))
      | exact absurd h (ofQuote_ne (by decide))
      | exact absurd h (orEqual_ne (by decide) (by decide))
      | exact absurd h (doubled_ne (by decide))

theorem ofOther_number {c : Char} (h : ofOther c cs = lexeme .number more) : isDigit c = true := by
  unfold ofOther at h
  split at h
  · assumption
  · split at h
    · simp only [lexeme.injEq] at h
      exact absurd h.1 (TokenKind.ofWord_ne (by decide) (by decide))
    · simp at h

/-- A number begins with a digit. -/
theorem classify_number {c : Char} (h : classify c cs = lexeme .number more) :
    isDigit c = true := by
  unfold classify at h
  split at h
  · simp at h
  · split at h
    all_goals first
      | exact ofOther_number h
      | exact absurd h (by simp)
      | exact absurd h (ofSlash_ne (by decide))
      | exact absurd h (ofQuote_ne (by decide))
      | exact absurd h (orEqual_ne (by decide) (by decide))
      | exact absurd h (doubled_ne (by decide))

end Piece

namespace TokenStream

theorem spelled_scan (done : List Token) (pos : Position) (cs : List Char)
    (hDone : ∀ t ∈ done, t.Spelled) : ∀ t ∈ (scan done pos cs).tokens, t.Spelled := by
  fun_induction scan done pos cs with
  | case1 =>
    intro t ht
    rcases List.mem_cons.mp (List.mem_reverse.mp ht) with rfl | ht
    · intro hKind
      cases hKind
    · exact hDone t ht
  | case2 done pos c cs more hPiece ih => exact ih hDone
  | case3 done pos c cs kind more hPiece chars ih =>
    apply ih
    intro t ht
    rcases List.mem_cons.mp ht with rfl | ht
    · intro hKind
      obtain rfl : kind = .identifier := hKind
      exact Piece.classify_identifier hPiece
    · exact hDone t ht
  | case4 => exact fun t ht => hDone t (List.mem_reverse.mp ht)

theorem spelled_ofSource (source : String) : ∀ t ∈ (ofSource source).tokens, t.Spelled :=
  spelled_scan [] Position.first source.toList (by simp)

end TokenStream

end Tern
