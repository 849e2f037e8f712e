import Tern.Proofs.Token.Spelling

/-!
# Where tokens stand

Lines and columns are counted from one, and neither counts more than the code units that have been
read: a line feed is one unit, and a column counts the units of its line. So the position of a
token, and the place where it stops, are bounded by the length of the source.

* `Position.Within`: a position that some text may still follow;
* `TokenStream.each_ofSource`: what holds of every lexeme at such a position holds of the tokens of
  a source.
-/

namespace Tern

namespace Text

theorem unitCount_cons (c : Char) (cs : List Char) : unitCount (c :: cs) = units c + unitCount cs :=
  rfl

theorem unitCount_append (a b : List Char) : unitCount (a ++ b) = unitCount a + unitCount b := by
  induction a with
  | nil => simp [unitCount]
  | cons c a ih =>
    rw [List.cons_append, unitCount_cons, unitCount_cons, ih]
    omega

theorem units_pos (c : Char) : 0 < units c := by
  unfold units
  split <;> omega

end Text

namespace Position

/-- Counted from one, and not beyond `n` even when the text `cs` has been read. -/
structure Within (n : Nat) (p : Position) (cs : List Char) : Prop where
  line_pos : 0 < p.line
  column_pos : 0 < p.column
  line_le : p.line + Text.unitCount cs ≤ n
  column_le : p.column + Text.unitCount cs ≤ n

variable {n : Nat} {p : Position}

theorem Within.next {c : Char} {cs : List Char} (h : Within n p (c :: cs)) :
    Within n (p.next c) cs := by
  obtain ⟨hLine, hColumn, hLineLe, hColumnLe⟩ := h
  rw [Text.unitCount_cons] at hLineLe hColumnLe
  have hUnits := Text.units_pos c
  unfold Position.next
  split
  · constructor
    all_goals
      dsimp only
      omega
  · constructor
    all_goals
      dsimp only
      omega

theorem Within.after {a b : List Char} (h : Within n p (a ++ b)) : Within n (p.after a) b := by
  induction a generalizing p with
  | nil => exact h
  | cons c a ih => exact ih h.next

end Position

namespace TokenStream

variable {T : Token → Prop} {n : Nat}

theorem scan_nil (done : List Token) (pos : Position) :
    scan done pos [] = ⟨(Token.eof pos :: done).reverse, none⟩ := by
  rw [scan]

theorem scan_lexeme {c : Char} {cs : List Char} {kind : TokenKind} {more : Nat}
    {done : List Token} {pos : Position} {stream : TokenStream}
    (hPiece : Piece.classify c cs = .lexeme kind more)
    (hRest : scan (Token.ofLexeme kind (c :: cs.take more) pos :: done)
      (pos.after (c :: cs.take more)) (cs.drop more) = stream) :
    scan done pos (c :: cs) = stream := by
  rw [scan, hPiece]
  exact hRest

/-- What holds of each lexeme and of an end of input holds of the tokens that a scan adds. -/
theorem each_scan (hLexeme : ∀ kind c cs more pos, Piece.classify c cs = .lexeme kind more →
      pos.Within n (c :: cs) → T (.ofLexeme kind (c :: cs.take more) pos))
    (hEnd : ∀ pos, pos.Within n [] → T (.eof pos)) (done : List Token) (pos : Position)
    (cs : List Char) (hPos : pos.Within n cs) (hDone : ∀ t ∈ done, T t) :
    ∀ t ∈ (scan done pos cs).tokens, T t := by
  have hAfter : ∀ {pos : Position} {c : Char} {cs : List Char} (more : Nat),
      pos.Within n (c :: cs) → (pos.after (c :: cs.take more)).Within n (cs.drop more) := by
    intro pos c cs more hPos
    refine Position.Within.after ?_
    rwa [List.cons_append, List.take_append_drop]
  fun_induction scan done pos cs with
  | case1 done pos =>
    intro t ht
    rcases List.mem_cons.mp (List.mem_reverse.mp ht) with rfl | ht
    · exact hEnd pos hPos
    · exact hDone t ht
  | case2 done pos c cs more hPiece ih => exact ih (hAfter more hPos) hDone
  | case3 done pos c cs kind more hPiece chars ih =>
    refine ih (hAfter more hPos) ?_
    intro t ht
    rcases List.mem_cons.mp ht with rfl | ht
    · exact hLexeme kind c cs more pos hPiece hPos
    · exact hDone t ht
  | case4 => exact fun t ht => hDone t (List.mem_reverse.mp ht)

theorem each_ofSource (source : String)
    (hLexeme : ∀ kind c cs more pos, Piece.classify c cs = .lexeme kind more →
      pos.Within (1 + Text.unitLength source) (c :: cs) →
      T (.ofLexeme kind (c :: cs.take more) pos))
    (hEnd : ∀ pos, pos.Within (1 + Text.unitLength source) [] → T (.eof pos)) :
    ∀ t ∈ (ofSource source).tokens, T t :=
  each_scan hLexeme hEnd [] Position.first source.toList
    ⟨Nat.one_pos, Nat.one_pos, Nat.le_refl _, Nat.le_refl _⟩ (by simp)

end TokenStream

end Tern
