import Tern.Proofs.Token.Layout

/-!
# One source below another

A source that ends without trouble can be followed, on the next line, by any other source. The line
break ends whatever the first one leaves open: a lexeme, a run of blanks or a comment to the end of
the line. The second source is cut as it is by itself, with all places moved down.

* `Token.down`: a token on a lower line;
* `Cut.extend`: a cut goes on to be one when a line break and more text come after it;
* `TokenStream.scan_down`: scanning from a lower line;
* `TokenStream.ofSource_append`: the tokens of one source below another.
-/

namespace Tern

/-! ## Lower lines -/

/-- The same column, some lines further down. -/
def Position.down (lines : Nat) (p : Position) : Position := ⟨p.line + lines, p.column⟩

/-- The same columns, some lines further down. -/
def Span.down (lines : Nat) (s : Span) : Span := ⟨s.start.down lines, s.stop.down lines⟩

/-- The same token, some lines further down. -/
def Token.down (lines : Nat) (t : Token) : Token := { t with pos := t.pos.down lines }

/-- The same trouble, some lines further down. -/
def LexError.down (lines : Nat) (e : LexError) : LexError := { e with pos := e.pos.down lines }

theorem Position.next_down (lines : Nat) (p : Position) (c : Char) :
    (p.down lines).next c = (p.next c).down lines := by
  unfold next down
  split
  · rw [Nat.add_right_comm]
  · rfl

theorem Position.after_down (lines : Nat) (p : Position) (cs : List Char) :
    (p.down lines).after cs = (p.after cs).down lines := by
  induction cs generalizing p with
  | nil => rfl
  | cons c cs ih =>
    change ((p.down lines).next c).after cs = _
    rw [next_down, ih]
    rfl

/-- The line after a text. -/
theorem Position.place_break (before : List Char) :
    (place before).next '\n' = first.down (1 + before.count '\n') := by
  unfold next
  rw [if_pos rfl, down, place, first, Position.mk.injEq]
  exact ⟨Nat.add_comm _ _, rfl⟩

/-! ## Before a line break -/

theorem Trivia.extend {t rest more : List Char} (h : Trivia t rest) :
    Trivia t (rest ++ '\n' :: more) := by
  induction h with
  | nil => exact .nil
  | blank layout _ ih => exact .blank layout ih
  | @line body t rest inside stop _ ih =>
    refine .line inside (fun c hc => ?_) ih
    rw [← List.append_assoc] at hc
    cases hNext : t ++ rest with
    | nil =>
      rw [hNext] at hc
      exact (Option.some.inj hc).symm
    | cons d ds =>
      rw [hNext] at hc stop
      exact stop c hc
  | block inside _ ih => exact .block inside ih

theorem Cut.extend {source done rest more : List Char} {tokens : List Token}
    (h : Cut source done tokens rest) :
    Cut (source ++ '\n' :: more) done tokens (rest ++ '\n' :: more) := by
  induction h with
  | start => exact .start
  | @lexeme done t chars rest tokens kind literal _ trivia clear longest ih =>
    have hLine : isLayout '\n' = true := rfl
    rw [List.append_assoc, List.append_assoc] at ih
    refine .lexeme ih ?_ ?_ (longest.extend hLine)
    · rw [← List.append_assoc]
      exact trivia.extend
    · rw [← List.append_assoc]
      exact fun hOpens => clear (hOpens.of_extend hLine)

namespace TokenStream

/-- From a lower line the scanner finds the same, further down. -/
theorem scan_down (lines : Nat) (done before : List Token) (pos : Position) (cs : List Char) :
    scan (done.map (Token.down lines) ++ before) (pos.down lines) cs =
      ⟨before.reverse ++ (scan done pos cs).tokens.map (Token.down lines),
        (scan done pos cs).failure.map (LexError.down lines)⟩ := by
  fun_induction scan done pos cs with
  | case1 done pos =>
    rw [scan_nil]
    simp [Token.down, Token.eof]
  | case2 done pos c cs more hPiece ih =>
    rw [scan, hPiece]
    simp only
    rw [Position.after_down]
    exact ih
  | case3 done pos c cs kind more hPiece chars ih =>
    rw [scan, hPiece]
    simp only
    rw [Position.after_down]
    exact ih
  | case4 done pos c cs cause hPiece =>
    rw [scan, hPiece]
    simp [LexError.down]

/-- The tokens of one source below another. -/
theorem ofSource_append {a : String} (b : String) (h : (ofSource a).failure = none) :
    ofSource (a ++ "\n" ++ b) =
      ⟨(ofSource a).lexemes ++ (ofSource b).tokens.map (Token.down (1 + a.toList.count '\n')),
        (ofSource b).failure.map (LexError.down (1 + a.toList.count '\n'))⟩ := by
  obtain ⟨-, ⟨done, rest, hCut, hTrivia⟩, -⟩ := ofSource_eq h
  have hText : (a ++ "\n" ++ b).toList = a.toList ++ '\n' :: b.toList := by simp
  have hEnd : Trivia rest ('\n' :: b.toList) := hTrivia.extend
  have hBreak : ∀ pos, scan (ofSource a).lexemes.reverse pos ('\n' :: b.toList) =
      scan (ofSource a).lexemes.reverse (pos.next '\n') b.toList :=
    scan_trivia (.blank rfl .nil) _
  have hPlace : (Position.place done).after rest = Position.place a.toList := by
    rw [Position.after_place, hCut.append_eq]
  rw [ofSource, hText, hCut.extend.scan, scan_trivia hEnd, hPlace, hBreak,
    Position.place_break]
  have hDown := scan_down (1 + a.toList.count '\n') [] (ofSource a).lexemes.reverse Position.first
    b.toList
  rwa [List.reverse_reverse] at hDown

end TokenStream

end Tern
