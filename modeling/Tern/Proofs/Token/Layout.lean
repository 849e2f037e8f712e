import Tern.Proofs.Token.Decomposition

/-!
# Blanks between lexemes

A blank keeps lexemes apart. No lexeme but a string has a blank in it, and a string ends with its
first closing quote, so what is the longest lexeme of a text stays the longest one when a blank and
any more text come after that text. The lexemes of a source with single blanks between them are
therefore cut into the same lexemes again.

* `Token.face`: a token without its place;
* `Longest.extend`: a blank and more text do not make the longest lexeme longer;
* `TokenStream.spaced`: the lexemes of a source with blanks between them;
* `TokenStream.ofSource_spaced`: they are the same lexemes.
-/

namespace Tern

/-- What a token is, apart from where it stands. -/
def Token.face (t : Token) : TokenKind × String × Option Literal := (t.kind, t.lexeme, t.literal)

variable {c : Char} {cs chars rest more text : List Char} {kind : TokenKind}
  {literal : Option Literal}

/-! ## Lexemes before a blank -/

theorem isLayout_of_isWordChar (h : isWordChar c = true) : isLayout c = false := by
  cases hLayout : isLayout c with
  | false => rfl
  | true =>
    simp only [isLayout, Bool.or_eq_true, beq_iff_eq] at hLayout
    rcases hLayout with ((rfl | rfl) | rfl) | rfl
    all_goals exact absurd h (by decide)

/-- There is no blank in a lexeme that is no string. -/
theorem Lexeme.no_layout (h : Lexeme kind (c :: cs) literal) (hQuote : c ≠ '"') :
    ∀ d ∈ c :: cs, isLayout d = false := by
  have hDigit : ∀ {d : Char}, isDigit d = true → isLayout d = false := fun h =>
    isLayout_of_isWordChar (by rw [isWordChar, h, Bool.or_true])
  rcases h.cases_head with ⟨hKind, hText⟩ | ⟨hStart, hRest⟩ | ⟨hFirst, ds, hDigits, hEnds⟩ |
    ⟨hString, -⟩
  · have hAll : ∀ kind ∈ TokenKind.symbols, kind.text.toList.all (fun d => !isLayout d) = true := by
      decide +kernel
    have hHere := hAll kind hKind
    rw [hText, List.all_eq_true] at hHere
    exact fun d hd => by simpa using hHere d hd
  · refine List.forall_mem_cons.mpr ⟨?_, fun d hd => isLayout_of_isWordChar (hRest d hd)⟩
    exact isLayout_of_isWordChar (by rw [isWordChar, hStart, Bool.true_or])
  · refine List.forall_mem_cons.mpr ⟨hDigit hFirst, fun d hd => ?_⟩
    rcases hEnds with rfl | ⟨e, es, he, hPlaces, rfl⟩
    · exact hDigit (hDigits d hd)
    · rcases List.mem_append.mp hd with hd | hd
      · exact hDigit (hDigits d hd)
      · rcases List.mem_cons.mp hd with rfl | hd
        · rfl
        · rcases List.mem_cons.mp hd with rfl | hd
          · exact hDigit he
          · exact hDigit (hPlaces d hd)
  · exact absurd hString hQuote

theorem Lexeme.kind_ne_end (h : Lexeme kind chars literal) : kind ≠ .endOfInput := by
  have hAll : ∀ kind ∈ TokenKind.symbols ++ TokenKind.keywords, kind ≠ .endOfInput := by decide
  cases h with
  | symbol known => exact hAll _ (List.mem_append_left _ known)
  | keyword known => exact hAll _ (List.mem_append_right _ known)
  | identifier | whole | fraction | string => nofun

/-- What is free of blanks ends before the first blank. -/
theorem prefix_of_no_layout (hFree : ∀ d ∈ chars, isLayout d = false) (hBlank : isLayout c = true)
    (h : chars <+: text ++ c :: more) : chars <+: text := by
  rcases List.prefix_or_prefix_of_prefix h (List.prefix_append text (c :: more)) with hHere | hLong
  · exact hHere
  · obtain ⟨after, rfl⟩ := hLong
    obtain ⟨tail, hTail⟩ := (List.prefix_append_right_inj text).mp h
    cases after with
    | nil => exact (List.append_nil text).symm ▸ List.prefix_rfl
    | cons d after =>
      obtain ⟨rfl, -⟩ := List.cons.inj hTail
      rw [hFree d (by simp)] at hBlank
      cases hBlank

theorem Longest.extend (h : Longest kind chars literal (chars ++ rest))
    (hBlank : isLayout c = true) : Longest kind chars literal (chars ++ (rest ++ c :: more)) := by
  refine ⟨h.lexeme, List.prefix_append _ _, fun {kind' chars' literal'} hOther hHere => ?_⟩
  cases chars with
  | nil => exact absurd rfl h.lexeme.ne_nil
  | cons d ds =>
    obtain ⟨tail, rfl, hTail⟩ := hOther.exists_tail hHere
    by_cases hQuote : d = '"'
    · subst hQuote
      -- a string ends where it is first closed, whatever comes after it
      rcases h.lexeme.cases_head with ⟨hKind, hText⟩ | ⟨hWord, -⟩ | ⟨hDigit, -⟩ |
        ⟨-, body, hBody, rfl⟩
      · exact absurd rfl (Lexeme.symbol_head hKind hText).2.2
      · exact absurd hWord (by decide)
      · exact absurd hDigit (by decide)
      · have hString := Longest.string (rest ++ c :: more) hBody
        exact hString.longest hOther (by simpa using hHere)
    · refine h.longest hOther ?_
      rw [← List.append_assoc] at hHere
      exact prefix_of_no_layout (hOther.no_layout hQuote) hBlank hHere

theorem Lexeme.longest (h : Lexeme kind chars literal) : Longest kind chars literal (chars ++ []) :=
  ⟨h, List.prefix_append _ _, fun _ hHere => by simpa using hHere.length_le⟩

theorem OpensComment.of_extend (hBlank : isLayout c = true)
    (h : OpensComment (text ++ c :: more)) : OpensComment text := by
  have hSlash : ∀ d, isLayout d = false → ['/', d] <+: text ++ c :: more → ['/', d] <+: text := by
    intro d hd hHere
    refine prefix_of_no_layout (fun x hx => ?_) hBlank hHere
    rcases List.mem_cons.mp hx with rfl | hx
    · rfl
    · exact List.mem_singleton.mp hx ▸ hd
  exact h.imp (hSlash '/' rfl) (hSlash '*' rfl)

theorem Lexeme.clear (h : Lexeme kind chars literal) : ¬OpensComment chars := by
  cases chars with
  | nil => exact absurd rfl h.ne_nil
  | cons c cs => exact Piece.clear_of_classify (Piece.classify_lexeme h).1

/-! ## The tokens of a source -/

/-- The lexeme of each token of a cut is a lexeme of its kind. -/
theorem Cut.lexeme_of_mem {source done rest : List Char} {tokens : List Token}
    (h : Cut source done tokens rest) :
    ∀ t ∈ tokens, Lexeme t.kind t.lexeme.toList t.literal := by
  induction h with
  | start => nofun
  | lexeme _ _ _ longest ih =>
    intro t ht
    rcases List.mem_append.mp ht with ht | ht
    · exact ih t ht
    · rw [List.mem_singleton.mp ht]
      exact String.toList_ofList ▸ longest.lexeme

namespace TokenStream

/-- The tokens of a stream before the end of input. -/
def lexemes (s : TokenStream) : List Token := s.tokens.filter (·.kind ≠ .endOfInput)

/-- The lexemes of a stream with single blanks between them. -/
def spaced (s : TokenStream) : String := " ".intercalate (s.lexemes.map (·.lexeme))

theorem decomposes_of_failure {source : String} (h : (ofSource source).failure = none) :
    ∃ tokens, Decomposes source.toList tokens := by
  have hStart : Cut source.toList [] [] source.toList := .start
  rcases hStart.complete with hWhole | ⟨tokens, error, hStuck⟩
  · exact hWhole
  · rw [ofSource_of_sticks hStuck] at h
    cases h

/-- The tokens of a source without trouble: its lexemes, and the end of input after them. -/
theorem ofSource_eq {source : String} (h : (ofSource source).failure = none) :
    ofSource source =
        ⟨(ofSource source).lexemes ++ [Token.eof (Position.place source.toList)], none⟩ ∧
      Decomposes source.toList (ofSource source).lexemes ∧
      ∀ t ∈ (ofSource source).lexemes, Lexeme t.kind t.lexeme.toList t.literal := by
  obtain ⟨tokens, hWhole⟩ := decomposes_of_failure h
  have hLexemes : ∀ t ∈ tokens, Lexeme t.kind t.lexeme.toList t.literal :=
    let ⟨_, _, hCut, _⟩ := hWhole
    hCut.lexeme_of_mem
  have hKeep : (ofSource source).lexemes = tokens := by
    rw [lexemes, ofSource_of_decomposes hWhole, List.filter_append,
      List.filter_eq_self.mpr fun t ht => by simpa using (hLexemes t ht).kind_ne_end]
    simp [Token.eof]
  rw [hKeep]
  exact ⟨ofSource_of_decomposes hWhole, hWhole, hLexemes⟩

/-- The scanner takes the lexeme of a token at any place where nothing makes it longer. -/
theorem scan_token {t : Token} (h : Longest t.kind t.lexeme.toList t.literal (t.lexeme.toList ++ rest))
    (hClear : ¬OpensComment (t.lexeme.toList ++ rest)) (done : List Token) (pos : Position) :
    scan done pos (t.lexeme.toList ++ rest) =
      scan ({ t with pos := pos } :: done) (pos.after t.lexeme.toList) rest := by
  rw [h.scan hClear, String.ofList_toList]

/-- Lexemes with single blanks between them are cut into the same lexemes. -/
theorem scan_spaced (ts : List Token)
    (hLexemes : ∀ t ∈ ts, Lexeme t.kind t.lexeme.toList t.literal) (done : List Token)
    (pos : Position) : ∃ us stop,
      scan done pos ([' '].intercalate (ts.map (·.lexeme.toList))) =
        ⟨done.reverse ++ us ++ [Token.eof stop], none⟩ ∧ us.map Token.face = ts.map Token.face := by
  induction ts generalizing done pos with
  | nil => exact ⟨[], pos, by simp [scan_nil], rfl⟩
  | cons t ts ih =>
    obtain ⟨hLexeme, hLater⟩ := List.forall_mem_cons.mp hLexemes
    cases ts with
    | nil =>
      refine ⟨[{ t with pos := pos }], pos.after t.lexeme.toList, ?_, rfl⟩
      have hScan := scan_token hLexeme.longest (by rw [List.append_nil]; exact hLexeme.clear) done pos
      rw [List.append_nil] at hScan
      rw [List.map_singleton, List.intercalate_singleton, hScan, scan_nil]
      simp
    | cons u ts =>
      obtain ⟨us, stop, hScan, hFaces⟩ := ih hLater ({ t with pos := pos } :: done)
        ((pos.after t.lexeme.toList).after [' '])
      refine ⟨{ t with pos := pos } :: us, stop, ?_, congrArg (t.face :: ·) hFaces⟩
      have hBlank : isLayout ' ' = true := rfl
      generalize hMore : [' '].intercalate ((u :: ts).map (·.lexeme.toList)) = more at hScan
      have hText : [' '].intercalate ((t :: u :: ts).map (·.lexeme.toList)) =
          t.lexeme.toList ++ ([] ++ ' ' :: more) := by
        rw [← hMore, List.map_cons, List.map_cons, List.intercalate_cons_cons]
        simp
      have hClear : ¬OpensComment (t.lexeme.toList ++ ' ' :: more) := fun h =>
        hLexeme.clear (h.of_extend hBlank)
      rw [hText, scan_token (hLexeme.longest.extend hBlank) hClear]
      refine (scan_trivia (.blank hBlank .nil) _ _).trans (hScan.trans ?_)
      simp

/-- Layout does not matter: the lexemes of a source with single blanks between them are cut into the
same lexemes. -/
theorem ofSource_spaced {source : String} (h : (ofSource source).failure = none) :
    (ofSource (ofSource source).spaced).failure = none ∧
      (ofSource (ofSource source).spaced).tokens.map Token.face =
        (ofSource source).tokens.map Token.face := by
  obtain ⟨hTokens, -, hLexemes⟩ := ofSource_eq h
  obtain ⟨us, stop, hScan, hFaces⟩ := scan_spaced _ hLexemes [] Position.first
  have hText : (ofSource source).spaced.toList =
      [' '].intercalate ((ofSource source).lexemes.map (·.lexeme.toList)) := by
    rw [spaced, String.toList_intercalate, List.map_map]
    rfl
  rw [← hText] at hScan
  have hSpaced : ofSource (ofSource source).spaced = ⟨us ++ [Token.eof stop], none⟩ := hScan
  rw [hSpaced]
  refine ⟨rfl, ?_⟩
  rw [hTokens, List.map_append, List.map_append, hFaces]
  rfl

end TokenStream

end Tern
