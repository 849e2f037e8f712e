import Tern.Proofs.Token.Juxtaposition

/-!
# A source with more lines

Whatever lines come after a source, its tokens stay what they are: the tokens of the whole begin
with them. A string or a comment that is open may be closed by what comes; a character that begins
no lexeme stays one, and nothing is read behind it.

* `Sticks.extend`: a source that is stuck at a stray character stays stuck there;
* `Sticks.close_comment`, `Sticks.close_string`: a source that is stuck in a comment or in a string
  goes on behind the next closing mark;
* `TokenStream.ofSource_stray`: more lines do not change a stream that ends in a stray character;
* `TokenStream.exists_more`: the tokens of a source with more lines.
-/

namespace Tern

variable {c : Char} {done rest more source : List Char} {tokens : List Token} {pos : Position}

theorem Stuck.extend (h : Stuck (.stray c) rest) : Stuck (.stray c) (rest ++ '\n' :: more) := by
  cases h with
  | @stray c cs layout quote none =>
    refine .stray layout quote fun {kind chars literal} hLexeme hHere => ?_
    obtain ⟨tail, rfl, -⟩ := hLexeme.exists_tail hHere
    have hLine : isLayout '\n' = true := rfl
    exact none hLexeme (prefix_of_no_layout (hLexeme.no_layout quote) hLine hHere)

theorem Sticks.extend (h : Sticks source tokens ⟨.stray c, pos⟩) :
    Sticks (source ++ '\n' :: more) tokens ⟨.stray c, pos⟩ := by
  obtain ⟨done, t, rest, hCut, hTrivia, hStuck, hPos⟩ := h
  refine ⟨done, t, rest ++ '\n' :: more, ?_, hTrivia.extend, hStuck.extend, hPos⟩
  rw [← List.append_assoc]
  exact hCut.extend

/-! ## Closing marks -/

theorem Trivia.append {t u : List Char} (h : Trivia t (u ++ rest)) (h' : Trivia u rest) :
    Trivia (t ++ u) rest := by
  generalize hAfter : u ++ rest = after at h
  induction h with
  | nil => exact h'
  | blank layout _ ih => exact .blank layout (ih hAfter)
  | @line body t _ inside stop _ ih =>
    subst hAfter
    have hLine := Trivia.line inside (by rwa [List.append_assoc]) (ih rfl)
    simpa using hLine
  | @block body t _ inside _ ih =>
    have hBlock := Trivia.block inside (ih hAfter)
    simpa using hBlock

/-- Behind its closing mark nothing is left of a comment. -/
theorem Sticks.close_comment (h : Sticks source tokens ⟨.openComment, pos⟩) :
    Decomposes (source ++ '\n' :: ['*', '/']) tokens := by
  obtain ⟨done, t, rest, hCut, hTrivia, hStuck, -⟩ := h
  cases hStuck with
  | @comment cs opened =>
    refine ⟨done, _, hCut.extend, ?_⟩
    have hInside : ¬['*', '/'] <:+: cs ++ ['\n'] := by
      rintro ⟨before, after, hText⟩
      rcases List.eq_nil_or_concat after with rfl | ⟨after, c, rfl⟩
      · have hLast := congrArg List.getLast? hText
        simp at hLast
      · rw [List.concat_eq_append, ← List.append_assoc] at hText
        exact opened ⟨before, after, (List.append_inj' hText rfl).1⟩
    have hBlock : Trivia ('/' :: '*' :: (cs ++ ['\n'] ++ '*' :: '/' :: [])) [] :=
      .block hInside .nil
    have hBefore : Trivia t ('/' :: '*' :: cs ++ '\n' :: ['*', '/']) := hTrivia.extend
    rw [List.append_assoc]
    refine .append ?_ ?_
    · simpa using hBefore
    · simpa using hBlock

/-- A string goes on to the next quote. -/
theorem Sticks.close_string (h : Sticks source tokens ⟨.openString, pos⟩) (body rest : List Char)
    (hBody : '"' ∉ body) : ∃ done t, Cut (source ++ '\n' :: (body ++ '"' :: rest)) done
      (tokens ++ [t]) rest ∧ t.kind = .string := by
  obtain ⟨done, u, rest', hCut, hTrivia, hStuck, -⟩ := h
  cases hStuck with
  | @string cs opened =>
    have hInside : '"' ∉ cs ++ '\n' :: body := by
      simp only [List.mem_append, List.mem_cons, not_or]
      exact ⟨opened, by decide, hBody⟩
    have hText : '"' :: cs ++ '\n' :: (body ++ '"' :: rest) =
        ('"' :: (cs ++ '\n' :: body) ++ ['"']) ++ rest := by simp
    have hLonger : Cut (source ++ '\n' :: (body ++ '"' :: rest)) done tokens
        (u ++ '"' :: cs ++ '\n' :: (body ++ '"' :: rest)) := hCut.extend
    rw [List.append_assoc, hText] at hLonger
    have hBefore : Trivia u ('"' :: cs ++ '\n' :: (body ++ '"' :: rest)) := hTrivia.extend
    rw [hText] at hBefore
    have hLongest := Longest.string rest hInside
    refine ⟨_, _, .lexeme hLonger hBefore ?_ (by simpa using hLongest), rfl⟩
    rintro (hOpens | hOpens) <;> cases (List.cons_prefix_cons.mp hOpens).1

theorem Sticks.open_string {body : List Char} (h : Sticks source tokens ⟨.openString, pos⟩)
    (hBody : '"' ∉ body) : Sticks (source ++ '\n' :: body) tokens ⟨.openString, pos⟩ := by
  obtain ⟨done, u, rest, hCut, hTrivia, hStuck, hPos⟩ := h
  cases hStuck with
  | @string cs opened =>
    refine ⟨done, u, '"' :: (cs ++ '\n' :: body), ?_, hTrivia.extend, .string ?_, hPos⟩
    · have hLonger : Cut (source ++ '\n' :: body) done tokens (u ++ '"' :: cs ++ '\n' :: body) :=
        hCut.extend
      rwa [List.append_assoc] at hLonger
    · simp only [List.mem_append, List.mem_cons, not_or]
      exact ⟨opened, by decide, hBody⟩

namespace TokenStream

theorem toList_lines (a b : String) :
    (a ++ "\n" ++ b).toList = a.toList ++ '\n' :: b.toList := by simp

/-- Behind a stray character nothing is read. -/
theorem ofSource_stray {a : String} (b : String)
    (h : (ofSource a).failure = some ⟨.stray c, pos⟩) : ofSource (a ++ "\n" ++ b) = ofSource a := by
  have hStuck := ((exact_decomposition a).2.2 (ofSource a).tokens ⟨.stray c, pos⟩).mp (by rw [← h])
  rw [ofSource_of_sticks (toList_lines a b ▸ hStuck.extend), ofSource_of_sticks hStuck]

/-- The tokens of a cut are the first ones of the source. -/
theorem exists_of_cut {a : String} (h : Cut a.toList done tokens rest) :
    ∃ later, (ofSource a).tokens = tokens ++ later := by
  have hDown := congrArg TokenStream.tokens
    (scan_down 0 [] tokens.reverse (Position.place done) rest)
  rw [List.reverse_reverse] at hDown
  exact ⟨_, (congrArg TokenStream.tokens h.scan).trans hDown⟩

/-- The lexemes of a source are those of a cut of it, and nothing but the end of input is behind
them. -/
theorem exists_cut (a : String) : ∃ done rest tail, Cut a.toList done (ofSource a).lexemes rest ∧
    (ofSource a).tokens = (ofSource a).lexemes ++ tail ∧
      ∀ t ∈ tail.head?, t.kind = .endOfInput := by
  have hStart : Cut a.toList [] [] a.toList := .start
  rcases hStart.complete with ⟨tokens, hWhole⟩ | ⟨tokens, error, hStuck⟩
  · obtain ⟨hTokens, ⟨done, rest, hCut, -⟩, -⟩ :=
      ofSource_eq ((exact_decomposition a).1.mpr ⟨tokens, hWhole⟩)
    refine ⟨done, rest, [Token.eof (Position.place a.toList)], hCut, ?_, fun t ht => ?_⟩
    · exact congrArg TokenStream.tokens hTokens
    · cases ht
      rfl
  · have hStream := ofSource_of_sticks hStuck
    obtain ⟨done, t, rest, hCut, -⟩ := hStuck
    have hKeep : (ofSource a).lexemes = tokens := by
      rw [hStream, lexemes]
      exact List.filter_eq_self.mpr fun t ht => by simpa using (hCut.lexeme_of_mem t ht).kind_ne_end
    refine ⟨done, t ++ rest, [], hKeep.symm ▸ hCut, ?_, fun t ht => by cases ht⟩
    rw [hKeep, hStream, List.append_nil]

/-- So are they of a source with more lines. -/
theorem exists_later {a : String} (h : Cut a.toList done tokens rest) (b : String) :
    ∃ later, (ofSource (a ++ "\n" ++ b)).tokens = tokens ++ later :=
  exists_of_cut (toList_lines a b ▸ h.extend)

/-- The tokens of a source with more lines begin with the lexemes of the source. -/
theorem exists_more (a b : String) :
    ∃ later, (ofSource (a ++ "\n" ++ b)).tokens = (ofSource a).lexemes ++ later := by
  obtain ⟨done, rest, -, hCut, -⟩ := exists_cut a
  exact exists_later hCut b

end TokenStream

end Tern
