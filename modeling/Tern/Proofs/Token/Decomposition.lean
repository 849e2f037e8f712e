import Tern.Proofs.Token.Lexeme
import Tern.Proofs.Token.Position

/-!
# How a text is cut

A text is cut into lexemes with trivia before, between and after them: blanks, comments to the end
of the line and closed block comments. Where no comment begins, the next lexeme is the longest
that the text goes on with. The cut ends with the text, or where neither trivia nor a lexeme
stands.

* `Trivia`: what is passed over;
* `Cut`: a text that is cut up to some place, with the tokens so far;
* `Stuck`: a text that cannot be cut further, with the cause;
* `Decomposes`, `Sticks`: a source that is cut to its end, and one that is not;
* `Cut.scan`: the scanner comes through every cut;
* `Cut.complete`: every source is cut to its end or gets stuck;
* `TokenStream.exact_decomposition`: the tokens of a source are those of its cut.
-/

namespace Tern

/-! ## Places -/

/-- The last line of a text. -/
def lastLine (before : List Char) : List Char := (before.reverse.takeWhile (· ≠ '\n')).reverse

/-- The place after a text: the line feeds in it are counted, and then the code units of its last
line. -/
def Position.place (before : List Char) : Position :=
  ⟨1 + before.count '\n', 1 + Text.unitCount (lastLine before)⟩

theorem lastLine_snoc (before : List Char) (c : Char) :
    lastLine (before ++ [c]) = if c = '\n' then [] else lastLine before ++ [c] := by
  unfold lastLine
  rw [List.reverse_append, List.reverse_singleton, List.singleton_append, List.takeWhile_cons]
  by_cases hc : c = '\n'
  · simp [hc]
  · simp [hc]

theorem Position.next_place (before : List Char) (c : Char) :
    (place before).next c = place (before ++ [c]) := by
  unfold next place
  rw [lastLine_snoc, List.count_append]
  by_cases hc : c = '\n'
  · subst hc
    rfl
  · have hUnits : Text.unitCount [c] = Text.units c := rfl
    rw [if_neg hc, if_neg hc, Text.unitCount_append, hUnits, List.count_singleton,
      if_neg (by simpa using hc), Nat.add_assoc, Nat.add_zero]

/-- Reading on from the place after a text leads to the place after more of it. -/
theorem Position.after_place (before more : List Char) :
    (place before).after more = place (before ++ more) := by
  induction more generalizing before with
  | nil => simp [after]
  | cons c more ih =>
    change ((place before).next c).after more = _
    rw [next_place, ih, List.append_assoc]
    rfl

/-! ## Cuts -/

/-- `Trivia t rest`: the text `t` can be passed over when `rest` comes after it. A comment that
begins with two slashes runs to the end of its line, and one that begins with a slash and a star to
the first closing mark. -/
inductive Trivia : List Char → List Char → Prop where
  | nil {rest : List Char} : Trivia [] rest
  | blank {c : Char} {t rest : List Char} (layout : isLayout c = true) (more : Trivia t rest) :
      Trivia (c :: t) rest
  | line {body t rest : List Char} (inside : '\n' ∉ body)
      (stop : ∀ c, (t ++ rest).head? = some c → c = '\n') (more : Trivia t rest) :
      Trivia ('/' :: '/' :: (body ++ t)) rest
  | block {body t rest : List Char} (inside : ¬['*', '/'] <:+: body) (more : Trivia t rest) :
      Trivia ('/' :: '*' :: (body ++ '*' :: '/' :: t)) rest

/-- A comment begins here. -/
def OpensComment (text : List Char) : Prop := ['/', '/'] <+: text ∨ ['/', '*'] <+: text

/-- `Cut source done tokens rest`: the source is cut into trivia and lexemes as far as `done`, which
gives the tokens, and `rest` comes after that. -/
inductive Cut (source : List Char) : List Char → List Token → List Char → Prop where
  | start : Cut source [] [] source
  | lexeme {done t chars rest : List Char} {tokens : List Token} {kind : TokenKind}
      {literal : Option Literal} (before : Cut source done tokens (t ++ (chars ++ rest)))
      (trivia : Trivia t (chars ++ rest)) (clear : ¬OpensComment (chars ++ rest))
      (longest : Longest kind chars literal (chars ++ rest)) :
      Cut source (done ++ t ++ chars)
        (tokens ++ [⟨kind, String.ofList chars, Position.place (done ++ t), literal⟩]) rest

/-- A text with which nothing can be done, and why: a block comment or a string is not closed, or
no lexeme begins here. -/
inductive Stuck : LexCause → List Char → Prop where
  | comment {cs : List Char} (opened : ¬['*', '/'] <:+: cs) : Stuck .openComment ('/' :: '*' :: cs)
  | string {cs : List Char} (opened : '"' ∉ cs) : Stuck .openString ('"' :: cs)
  | stray {c : Char} {cs : List Char} (layout : isLayout c = false) (quote : c ≠ '"')
      (none : ∀ {kind chars literal}, Lexeme kind chars literal → ¬chars <+: c :: cs) :
      Stuck (.stray c) (c :: cs)

/-- The tokens are those of a cut of the whole source. -/
def Decomposes (source : List Char) (tokens : List Token) : Prop :=
  ∃ done rest, Cut source done tokens rest ∧ Trivia rest []

/-- The tokens are those of a cut that cannot go on, and the error is where it gets stuck. -/
def Sticks (source : List Char) (tokens : List Token) (error : LexError) : Prop :=
  ∃ done t rest, Cut source done tokens (t ++ rest) ∧ Trivia t rest ∧ Stuck error.cause rest ∧
    error.pos = Position.place (done ++ t)

/-! ## Comments -/

namespace Piece

variable {c : Char} {cs : List Char} {kind : TokenKind} {more : Nat} {cause : LexCause}

/-- The first closing mark is looked for. -/
theorem commentLength_closed {body : List Char} (t : List Char) (hBody : ¬['*', '/'] <:+: body) :
    commentLength? (body ++ '*' :: '/' :: t) = some (body.length + 2) := by
  induction body with
  | nil => rfl
  | cons c body ih =>
    rw [List.infix_cons_iff, not_or] at hBody
    rw [List.cons_append, commentLength?.eq_2, ih hBody.2]
    · rfl
    · rintro after rfl hAfter
      cases body with
      | nil => cases hAfter
      | cons d body =>
        obtain rfl : d = '/' := (List.cons.inj hAfter).1
        exact hBody.1 ⟨body, rfl⟩

theorem commentLength_open (hOpen : ¬['*', '/'] <:+: cs) : commentLength? cs = none := by
  induction cs with
  | nil => rfl
  | cons c cs ih =>
    rw [List.infix_cons_iff, not_or] at hOpen
    rw [commentLength?.eq_2, ih hOpen.2]
    · rfl
    · rintro after rfl rfl
      exact hOpen.1 ⟨after, rfl⟩

/-- A text has a first closing mark or none. -/
theorem exists_closing (cs : List Char) :
    (∃ body t, cs = body ++ '*' :: '/' :: t ∧ ¬['*', '/'] <:+: body) ∨ ¬['*', '/'] <:+: cs := by
  induction cs with
  | nil => exact .inr (by simp)
  | cons c cs ih =>
    by_cases hHere : ['*', '/'] <+: c :: cs
    · obtain ⟨t, ht⟩ := hHere
      exact .inl ⟨[], t, ht.symm, by simp⟩
    · rcases ih with ⟨body, t, rfl, hBody⟩ | hOpen
      · refine .inl ⟨c :: body, t, rfl, ?_⟩
        rw [List.infix_cons_iff, not_or]
        exact ⟨fun hFirst => hHere (hFirst.trans ⟨'*' :: '/' :: t, rfl⟩), hBody⟩
      · rw [List.infix_cons_iff, not_or]
        exact .inr ⟨hHere, hOpen⟩

theorem classify_layout (h : isLayout c = true) (cs : List Char) : classify c cs = .trivia 0 := by
  unfold classify
  rw [if_pos h]

theorem classify_line {body rest : List Char} (hBody : '\n' ∉ body)
    (hStop : ∀ c, rest.head? = some c → c = '\n') :
    classify '/' ('/' :: (body ++ rest)) = .trivia (body.length + 1) := by
  have hRun : ∀ d ∈ '/' :: body, decide (d ≠ '\n') = true := by
    intro d hd
    rw [decide_eq_true_eq]
    rintro rfl
    exact hBody (List.mem_of_ne_of_mem (by decide) hd)
  have hEnd : ∀ d, rest.head? = some d → decide (d ≠ '\n') = false := by
    intro d hd
    rw [hStop d hd]
    rfl
  have hTake := takeWhile_run hRun hEnd
  have hSlash : classify '/' ('/' :: (body ++ rest)) = ofSlash ('/' :: body ++ rest) := rfl
  rw [hSlash, List.cons_append, ofSlash, ← List.cons_append, hTake, List.length_cons]

theorem classify_block {body : List Char} (rest : List Char) (hBody : ¬['*', '/'] <:+: body) :
    classify '/' ('*' :: (body ++ '*' :: '/' :: rest)) = .trivia (body.length + 3) := by
  have hSlash : classify '/' ('*' :: (body ++ '*' :: '/' :: rest)) =
      ofSlash ('*' :: (body ++ '*' :: '/' :: rest)) := rfl
  rw [hSlash, ofSlash, commentLength_closed rest hBody]

/-- Only layout and comments are passed over. -/
theorem head_of_trivia (h : classify c cs = .trivia more) :
    isLayout c = true ∨ (c = '/' ∧ ofSlash cs = .trivia more) := by
  unfold classify at h
  split at h
  · next hLayout => exact .inl hLayout
  · split at h
    all_goals first
      | exact .inr ⟨rfl, h⟩
      | exact absurd h (by unfold orEqual; split <;> simp)
      | exact absurd h (by unfold doubled; repeat (first | split | simp))
      | exact absurd h (by unfold ofQuote; split <;> simp)
      | exact absurd h (by unfold ofOther; repeat (first | split | simp))
      | cases h

/-- What the scanner passes over is trivia, whatever trivia comes after it. -/
theorem exists_trivia (h : classify c cs = .trivia more) :
    ∃ piece rest, cs = piece ++ rest ∧
      ∀ t after, rest = t ++ after → Trivia t after → Trivia (c :: (piece ++ t)) after := by
  rcases head_of_trivia h with hLayout | ⟨rfl, hSlash⟩
  · exact ⟨[], cs, rfl, fun t after _ hMore => .blank hLayout hMore⟩
  unfold ofSlash at hSlash
  split at hSlash
  · next cs =>
    obtain ⟨body, rest, rfl, hBody, hStop⟩ := exists_run (· != '\n') cs
    refine ⟨'/' :: body, rest, rfl, fun t after hRest hMore => .line ?_ ?_ hMore⟩
    · exact fun hMem => absurd (hBody _ hMem) (by decide)
    · intro d hd
      simpa using hStop d (hRest ▸ hd)
  · next cs =>
    rcases exists_closing cs with ⟨body, rest, rfl, hBody⟩ | hOpen
    · refine ⟨'*' :: (body ++ ['*', '/']), rest, by simp, fun t after _ hMore => ?_⟩
      have hBlock := Trivia.block hBody hMore
      rwa [List.cons_append, List.append_assoc]
    · rw [commentLength_open hOpen] at hSlash
      cases hSlash
  · cases hSlash

theorem opensComment_of_trivia (h : classify c cs = .trivia more) :
    isLayout c = true ∨ OpensComment (c :: cs) := by
  rcases head_of_trivia h with hLayout | ⟨rfl, hSlash⟩
  · exact .inl hLayout
  unfold ofSlash at hSlash
  split at hSlash
  · next cs => exact .inr (.inl ⟨cs, rfl⟩)
  · next cs => exact .inr (.inr ⟨cs, rfl⟩)
  · cases hSlash

/-- Where the scanner takes a lexeme no comment begins. -/
theorem clear_of_classify (h : classify c cs = .lexeme kind more) : ¬OpensComment (c :: cs) := by
  have hSlash : ∀ {d rest}, d = '/' ∨ d = '*' → c :: cs = '/' :: d :: rest → False := by
    rintro d rest hd hText
    cases hText
    rcases hd with rfl | rfl
    · cases h
    · change ofSlash ('*' :: rest) = _ at h
      unfold ofSlash at h
      cases hLength : commentLength? rest with
      | none => simp [hLength] at h
      | some n => simp [hLength] at h
  rintro (⟨rest, hText⟩ | ⟨rest, hText⟩)
  · exact hSlash (.inl rfl) hText.symm
  · exact hSlash (.inr rfl) hText.symm

/-! ## Trouble -/

theorem stray_doubled (hDoubled : c ∈ ['&', '|']) (hNext : ∀ rest, cs ≠ c :: rest) :
    Stuck (.stray c) (c :: cs) := by
  obtain ⟨hLayout, hQuote, hWord, hDigit⟩ : isLayout c = false ∧ c ≠ '"' ∧ isWordStart c = false ∧
      isDigit c = false := by
    simp only [List.mem_cons, List.not_mem_nil, or_false] at hDoubled
    rcases hDoubled with rfl | rfl <;> decide
  refine .stray hLayout hQuote fun hLexeme hHere => ?_
  obtain ⟨tail, rfl, hTail⟩ := hLexeme.exists_tail hHere
  rcases hLexeme.cases_head with ⟨hKind, hText⟩ | ⟨hWord', -⟩ | ⟨hDigit', -⟩ | ⟨hQuote', -⟩
  · rw [symbol_doubled hDoubled hKind hText] at hTail
    obtain ⟨rest, hRest⟩ := hTail
    exact hNext rest hRest.symm
  · rw [hWord] at hWord'
    cases hWord'
  · rw [hDigit] at hDigit'
    cases hDigit'
  · exact hQuote hQuote'

theorem stuck_doubled {double : TokenKind} (hDoubled : c ∈ ['&', '|'])
    (h : doubled double c cs = .stuck cause) : Stuck cause (c :: cs) := by
  unfold doubled at h
  split at h
  · next d rest =>
    split at h
    · cases h
    · next hOther =>
      cases h
      refine stray_doubled hDoubled fun rest' hRest => hOther ?_
      exact (List.cons.inj hRest).1
  · cases h
    exact stray_doubled hDoubled (by simp)

/-- The characters that symbols begin with. -/
theorem symbol_first {kind : TokenKind} (hKind : kind ∈ TokenKind.symbols) {tail : List Char}
    (hText : kind.text.toList = c :: tail) : c ∈ alone ++ ['!', '=', '<', '>', '&', '|'] := by
  have hAll : ∀ kind ∈ TokenKind.symbols, kind.text.toList.head?.all
      (fun c => decide (c ∈ alone ++ ['!', '=', '<', '>', '&', '|'])) = true := by decide +kernel
  have hHere := hAll kind hKind
  rw [hText] at hHere
  exact of_decide_eq_true hHere

theorem stuck_other (hLayout : isLayout c = false) (hQuote : c ≠ '"')
    (hSymbol : c ∉ alone ++ ['!', '=', '<', '>', '&', '|']) (h : ofOther c cs = .stuck cause) :
    Stuck cause (c :: cs) := by
  unfold ofOther at h
  split at h
  · cases h
  · next hDigit =>
    split at h
    · cases h
    · next hWord =>
      cases h
      refine .stray hLayout hQuote fun hLexeme hHere => ?_
      obtain ⟨tail, rfl, -⟩ := hLexeme.exists_tail hHere
      rcases hLexeme.cases_head with ⟨hKind, hText⟩ | ⟨hWord', -⟩ | ⟨hDigit', -⟩ | ⟨hQuote', -⟩
      · exact hSymbol (symbol_first hKind hText)
      · exact hWord hWord'
      · exact hDigit hDigit'
      · exact hQuote hQuote'

theorem stuck_slash (h : ofSlash cs = .stuck cause) : Stuck cause ('/' :: cs) := by
  unfold ofSlash at h
  split at h
  · cases h
  · next cs =>
    rcases exists_closing cs with ⟨body, rest, rfl, hBody⟩ | hOpen
    · rw [commentLength_closed rest hBody] at h
      cases h
    · rw [commentLength_open hOpen] at h
      cases h
      exact .comment hOpen
  · cases h

theorem stuck_quote (h : ofQuote cs = .stuck cause) : Stuck cause ('"' :: cs) := by
  by_cases hQuote : '"' ∈ cs
  · obtain ⟨body, rest, rfl, hBody⟩ := List.eq_append_cons_of_mem hQuote
    rw [ofQuote_closed rest hBody] at h
    cases h
  · unfold ofQuote at h
    split at h <;> cases h
    exact .string hQuote

/-- Where the scanner gives up nothing can be done. -/
theorem stuck_of_classify (h : classify c cs = .stuck cause) : Stuck cause (c :: cs) := by
  unfold classify at h
  split at h
  · cases h
  · next hLayout =>
    split at h
    all_goals first
      | cases h
      | exact stuck_slash h
      | exact stuck_quote h
      | exact stuck_doubled (by decide) h
      | exact absurd h (by unfold orEqual; split <;> simp)
      | exact stuck_other (by simpa using hLayout) (by assumption) (by simp_all [alone]) h

end Piece

/-! ## Scanning -/

variable {c : Char} {chars rest t : List Char} {kind : TokenKind} {literal : Option Literal}
  {cause : LexCause}

namespace TokenStream

theorem scan_piece {piece : List Char}
    (hPiece : Piece.classify c (piece ++ rest) = .trivia piece.length) (done : List Token)
    (pos : Position) :
    scan done pos (c :: (piece ++ rest)) = scan done (pos.after (c :: piece)) rest := by
  rw [scan, hPiece]
  simp only [List.take_left, List.drop_left]

/-- Trivia only move the position. -/
theorem scan_trivia (h : Trivia t rest) (done : List Token) (pos : Position) :
    scan done pos (t ++ rest) = scan done (pos.after t) rest := by
  induction h generalizing pos with
  | nil => rfl
  | @blank c t rest layout _ ih =>
    have hPiece : Piece.classify c ([] ++ (t ++ rest)) = .trivia 0 :=
      Piece.classify_layout layout _
    have hScan := scan_piece hPiece done pos
    rw [List.nil_append] at hScan
    rw [List.cons_append, hScan, ih, ← Position.after_append, List.singleton_append]
  | @line body t rest inside stop _ ih =>
    have hPiece : Piece.classify '/' ('/' :: body ++ (t ++ rest)) = .trivia (body.length + 1) :=
      Piece.classify_line inside stop
    have hText : '/' :: '/' :: (body ++ t) ++ rest = '/' :: ('/' :: body ++ (t ++ rest)) := by simp
    rw [hText, scan_piece hPiece, ih, ← Position.after_append]
    rfl
  | @block body t rest inside _ ih =>
    have hPiece : Piece.classify '/' (('*' :: (body ++ ['*', '/'])) ++ (t ++ rest)) =
        .trivia ('*' :: (body ++ ['*', '/'])).length := by
      have hBlock := Piece.classify_block (t ++ rest) inside
      simpa using hBlock
    have hText : '/' :: '*' :: (body ++ '*' :: '/' :: t) ++ rest =
        '/' :: (('*' :: (body ++ ['*', '/'])) ++ (t ++ rest)) := by simp
    rw [hText, scan_piece hPiece, ih, ← Position.after_append]
    simp

end TokenStream

/-- No lexeme begins with a blank. -/
theorem Lexeme.layout_head {cs : List Char} (h : Lexeme kind (c :: cs) literal) :
    isLayout c = false := by
  have hPiece := (Piece.classify_lexeme h).1
  cases hLayout : isLayout c with
  | false => rfl
  | true =>
    rw [Piece.classify_layout hLayout] at hPiece
    cases hPiece

theorem Longest.ne_stuck (h : Longest kind chars literal rest) (hClear : ¬OpensComment rest) :
    ¬Stuck cause rest := by
  intro hStuck
  cases hStuck with
  | comment => exact hClear (.inr ⟨_, rfl⟩)
  | string opened =>
    obtain ⟨tail, rfl, hTail⟩ := h.lexeme.exists_tail h.here
    rcases h.lexeme.cases_head with ⟨hKind, hText⟩ | ⟨hWord, -⟩ | ⟨hDigit, -⟩ | ⟨-, body, -, rfl⟩
    · exact (Lexeme.symbol_head hKind hText).2.2 rfl
    · exact absurd hWord (by decide)
    · exact absurd hDigit (by decide)
    · exact opened (hTail.subset (by simp))
  | stray _ _ none => exact none h.lexeme h.here

/-- Where no comment begins the scanner takes the longest lexeme. -/
theorem Longest.scan (h : Longest kind chars literal (chars ++ rest))
    (hClear : ¬OpensComment (chars ++ rest)) (done : List Token) (pos : Position) :
    TokenStream.scan done pos (chars ++ rest) =
      TokenStream.scan (⟨kind, String.ofList chars, pos, literal⟩ :: done) (pos.after chars)
        rest := by
  cases chars with
  | nil => exact absurd rfl h.lexeme.ne_nil
  | cons c cs =>
    rw [List.cons_append] at h hClear ⊢
    cases hPiece : Piece.classify c (cs ++ rest) with
    | trivia more =>
      rcases Piece.opensComment_of_trivia hPiece with hLayout | hOpens
      · rw [h.lexeme.layout_head] at hLayout
        cases hLayout
      · exact absurd hOpens hClear
    | stuck cause => exact absurd (Piece.stuck_of_classify hPiece) (h.ne_stuck hClear)
    | lexeme kind' more =>
      obtain ⟨rfl, hChars, rfl⟩ := h.unique (Piece.longest_of_classify hPiece)
      have hTake : (cs ++ rest).take more = cs := (List.cons.inj hChars).2.symm
      have hDrop : (cs ++ rest).drop more = rest := by
        have hBoth := List.take_append_drop more (cs ++ rest)
        rw [hTake] at hBoth
        exact List.append_cancel_left hBoth
      rw [TokenStream.scan, hPiece]
      simp only [hTake, hDrop]
      rfl

/-- A slash is a lexeme, so it is no stray character. -/
theorem OpensComment.lexeme (h : OpensComment rest) :
    ∃ kind chars literal, Lexeme kind chars literal ∧ chars <+: rest := by
  have hSlash : Lexeme .slash ['/'] none := .symbol (by decide)
  refine ⟨.slash, ['/'], none, hSlash, ?_⟩
  rcases h with h | h
  · exact List.IsPrefix.trans ⟨['/'], rfl⟩ h
  · exact List.IsPrefix.trans ⟨['*'], rfl⟩ h

/-- Where nothing can be done the scanner gives up. -/
theorem Stuck.classify {cs : List Char} (h : Stuck cause (c :: cs)) :
    Piece.classify c cs = .stuck cause := by
  cases h with
  | @comment cs opened =>
    change Piece.ofSlash ('*' :: cs) = _
    rw [Piece.ofSlash, Piece.commentLength_open opened]
  | string opened =>
    rw [Piece.classify_quote, Piece.ofQuote, List.findIdx?_eq_none_iff.mpr]
    intro d hd
    rw [beq_eq_false_iff_ne]
    rintro rfl
    exact opened hd
  | stray layout quote none =>
    cases hPiece : Piece.classify c cs with
    | trivia more =>
      rcases Piece.opensComment_of_trivia hPiece with hLayout | hOpens
      · rw [layout] at hLayout
        cases hLayout
      · obtain ⟨kind, chars, literal, hLexeme, hHere⟩ := hOpens.lexeme
        exact absurd hHere (none hLexeme)
    | lexeme kind more =>
      have hLongest := Piece.longest_of_classify hPiece
      exact absurd hLongest.here (none hLongest.lexeme)
    | stuck cause =>
      cases Piece.stuck_of_classify hPiece with
      | comment =>
        obtain ⟨kind, chars, literal, hLexeme, hHere⟩ := OpensComment.lexeme (.inr ⟨_, rfl⟩)
        exact absurd hHere (none hLexeme)
      | string => exact absurd rfl quote
      | stray => rfl

theorem Stuck.scan (h : Stuck cause rest) (done : List Token) (pos : Position) :
    TokenStream.scan done pos rest = ⟨done.reverse, some ⟨cause, pos⟩⟩ := by
  cases rest with
  | nil => cases h
  | cons c cs => rw [TokenStream.scan, h.classify]

/-! ## The decomposition -/

namespace Cut

variable {source done : List Char} {tokens : List Token}

theorem append_eq (h : Cut source done tokens rest) : done ++ rest = source := by
  induction h with
  | start => rfl
  | lexeme _ _ _ _ ih => rw [← ih, List.append_assoc, List.append_assoc]

/-- The scan of the source comes through every cut. -/
theorem scan (h : Cut source done tokens rest) :
    TokenStream.scan [] Position.first source =
      TokenStream.scan tokens.reverse (Position.place done) rest := by
  induction h with
  | start => rfl
  | @lexeme done t chars rest tokens kind literal before trivia clear longest ih =>
    rw [ih, TokenStream.scan_trivia trivia, longest.scan clear, Position.after_place,
      Position.after_place, List.reverse_append, List.reverse_singleton, List.singleton_append]

end Cut

/-- A text goes on with trivia, and then it ends, is stuck or goes on with a lexeme. -/
theorem exists_next (text : List Char) : ∃ t rest, text = t ++ rest ∧ Trivia t rest ∧
    (rest = [] ∨ (∃ cause, Stuck cause rest) ∨
      ∃ kind chars literal after, rest = chars ++ after ∧ ¬OpensComment rest ∧
        Longest kind chars literal rest) := by
  induction hLength : text.length using Nat.strongRecOn generalizing text with
  | ind n ih =>
    cases text with
    | nil => exact ⟨[], [], rfl, .nil, .inl rfl⟩
    | cons c cs =>
      cases hPiece : Piece.classify c cs with
      | trivia more =>
        obtain ⟨piece, after, rfl, hGrow⟩ := Piece.exists_trivia hPiece
        have hShorter : after.length < n := by
          rw [← hLength, List.length_cons, List.length_append]
          omega
        obtain ⟨t, rest, rfl, hTrivia, hNext⟩ := ih after.length hShorter after rfl
        exact ⟨c :: (piece ++ t), rest, by simp, hGrow t rest rfl hTrivia, hNext⟩
      | stuck cause =>
        exact ⟨[], c :: cs, rfl, .nil, .inr (.inl ⟨cause, Piece.stuck_of_classify hPiece⟩)⟩
      | lexeme kind more =>
        have hLongest := Piece.longest_of_classify hPiece
        obtain ⟨after, hAfter⟩ := hLongest.here
        exact ⟨[], c :: cs, rfl, .nil, .inr (.inr ⟨kind, _, _, after, hAfter.symm,
          Piece.clear_of_classify hPiece, hLongest⟩)⟩

/-- Every cut goes on until the source ends or is stuck. -/
theorem Cut.complete {source done : List Char} {tokens : List Token}
    (h : Cut source done tokens rest) :
    (∃ tokens', Decomposes source tokens') ∨ ∃ tokens' error, Sticks source tokens' error := by
  -- a lexeme is not empty, so each step leaves less of the source
  induction hLength : rest.length using Nat.strongRecOn generalizing done tokens rest with
  | ind n ih =>
    obtain ⟨t, after, rfl, hTrivia, hEnd | ⟨cause, hStuck⟩ | hMore⟩ := exists_next rest
    · subst hEnd
      rw [List.append_nil] at h
      exact .inl ⟨tokens, done, t, h, hTrivia⟩
    · exact .inr ⟨tokens, ⟨cause, Position.place (done ++ t)⟩, done, t, after, h, hTrivia, hStuck,
        rfl⟩
    · obtain ⟨kind, chars, literal, rest, rfl, hClear, hLongest⟩ := hMore
      have hPos : 0 < chars.length := List.length_pos_iff.mpr hLongest.lexeme.ne_nil
      have hShorter : rest.length < n := by
        rw [← hLength, List.length_append, List.length_append]
        omega
      exact ih rest.length hShorter (.lexeme h hTrivia hClear hLongest) rfl

namespace TokenStream

variable {source : String} {tokens : List Token} {error : LexError}

theorem ofSource_of_decomposes (h : Decomposes source.toList tokens) :
    ofSource source = ⟨tokens ++ [Token.eof (Position.place source.toList)], none⟩ := by
  obtain ⟨done, rest, hCut, hTrivia⟩ := h
  have hScan := scan_trivia hTrivia tokens.reverse (Position.place done)
  rw [List.append_nil] at hScan
  rw [ofSource, hCut.scan, hScan, Position.after_place, hCut.append_eq, scan_nil,
    List.reverse_cons, List.reverse_reverse]

theorem ofSource_of_sticks (h : Sticks source.toList tokens error) :
    ofSource source = ⟨tokens, some error⟩ := by
  obtain ⟨cause, pos⟩ := error
  obtain ⟨done, t, rest, hCut, hTrivia, hStuck, rfl⟩ := h
  rw [ofSource, hCut.scan, scan_trivia hTrivia, hStuck.scan, Position.after_place,
    List.reverse_reverse]

/-- Scanning a source is cutting it: it succeeds if the source can be cut to its end, with the
tokens of the cut and the end of input after them, and fails otherwise where the cut gets stuck,
with the tokens before that. -/
theorem exact_decomposition (source : String) :
    ((ofSource source).failure = none ↔ ∃ tokens, Decomposes source.toList tokens) ∧
    (∀ tokens, ofSource source = ⟨tokens ++ [Token.eof (Position.place source.toList)], none⟩ ↔
      Decomposes source.toList tokens) ∧
    ∀ tokens error, ofSource source = ⟨tokens, some error⟩ ↔ Sticks source.toList tokens error := by
  -- a source is cut to its end or gets stuck, and its stream tells which, so each converse holds
  have hStart : Cut source.toList [] [] source.toList := .start
  rcases hStart.complete with ⟨whole, hWhole⟩ | ⟨part, error, hStuck⟩
  · have hStream := ofSource_of_decomposes hWhole
    refine ⟨⟨fun _ => ⟨whole, hWhole⟩, fun _ => by rw [hStream]⟩, fun tokens => ⟨fun h => ?_,
      ofSource_of_decomposes⟩, fun tokens error => ⟨fun h => ?_, ofSource_of_sticks⟩⟩
    · rw [hStream, TokenStream.mk.injEq, List.append_left_inj] at h
      exact h.1 ▸ hWhole
    · rw [hStream] at h
      cases h
  · have hStream := ofSource_of_sticks hStuck
    have hNone : ∀ tokens, ¬Decomposes source.toList tokens := by
      intro tokens h
      have hBoth := (ofSource_of_decomposes h).symm.trans hStream
      cases hBoth
    refine ⟨⟨fun h => ?_, fun ⟨tokens, h⟩ => absurd h (hNone tokens)⟩, fun tokens => ⟨fun h => ?_,
      ofSource_of_decomposes⟩, fun tokens error => ⟨fun h => ?_, ofSource_of_sticks⟩⟩
    · rw [hStream] at h
      cases h
    · rw [hStream] at h
      cases h
    · rw [hStream] at h
      cases h
      exact hStuck

end TokenStream

end Tern
