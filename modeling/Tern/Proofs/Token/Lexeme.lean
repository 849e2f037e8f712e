import Tern.Proofs.Decimal.Numeral
import Tern.Proofs.Token.Spelling

/-!
# Lexemes

Which texts are tokens of the language, told without a scanner: symbols, words, numerals and
strings. What stands at the beginning of a text is the longest lexeme that it begins with.

* `Lexeme`: the lexemes, with their kind and what they stand for;
* `Longest`: the longest lexeme at the beginning of a text;
* `Longest.unique`: there is one at most;
* `Piece.longest_of_classify`: what the scanner takes is the longest lexeme.
-/

namespace Tern

/-! ## The language -/

/-- A text is a lexeme of a kind and stands for a literal, if for anything. A word is a keyword if
it is spelled like one, and an identifier otherwise. -/
inductive Lexeme : TokenKind → List Char → Option Literal → Prop where
  | symbol {kind : TokenKind} (known : kind ∈ TokenKind.symbols) :
      Lexeme kind kind.text.toList none
  | keyword {kind : TokenKind} (known : kind ∈ TokenKind.keywords) :
      Lexeme kind kind.text.toList none
  | identifier {c : Char} {cs : List Char} (start : isWordStart c = true)
      (rest : ∀ d ∈ cs, isWordChar d = true)
      (free : ∀ kind ∈ TokenKind.keywords, kind.text.toList ≠ c :: cs) :
      Lexeme .identifier (c :: cs) none
  | whole {ds : List Char} (some_digit : ds ≠ []) (digits : ∀ d ∈ ds, isDigit d = true) :
      Lexeme .number ds (some (.number (Token.numberOf ds)))
  | fraction {ds es : List Char} (some_digit : ds ≠ []) (digits : ∀ d ∈ ds, isDigit d = true)
      (some_place : es ≠ []) (places : ∀ d ∈ es, isDigit d = true) :
      Lexeme .number (ds ++ '.' :: es) (some (.number (Token.numberOf (ds ++ '.' :: es))))
  | string {body : List Char} (closed : '"' ∉ body) :
      Lexeme .string ('"' :: body ++ ['"']) (some (.text (String.ofList body)))

/-- The longest lexeme that a text begins with. -/
structure Longest (kind : TokenKind) (chars : List Char) (literal : Option Literal)
    (text : List Char) : Prop where
  lexeme : Lexeme kind chars literal
  here : chars <+: text
  longest : ∀ {kind' chars' literal'}, Lexeme kind' chars' literal' → chars' <+: text →
    chars'.length ≤ chars.length

namespace Piece

variable {c d : Char} {cs chars : List Char} {kind : TokenKind} {literal : Option Literal}

/-! ## Words -/

theorem isDigit_of_isWordStart (h : isWordStart c = true) : isDigit c = false := by
  simp only [isWordStart, isDigit, Bool.or_eq_true, Bool.and_eq_true, decide_eq_true_eq,
    beq_iff_eq, Bool.and_eq_false_iff, decide_eq_false_iff_not, Char.le_def] at h ⊢
  rcases h with (⟨hLow, -⟩ | ⟨hLow, -⟩) | rfl
  · exact .inr fun hHigh => absurd (UInt32.le_trans hLow hHigh) (by decide)
  · exact .inr fun hHigh => absurd (UInt32.le_trans hLow hHigh) (by decide)
  · exact .inr (by decide)

/-- Words and numerals are told by their first character. -/
theorem classify_other (h : isWordStart c = true ∨ isDigit c = true) :
    classify c cs = ofOther c cs := by
  have hLayout : isLayout c = false := by
    cases hBlank : isLayout c with
    | false => rfl
    | true =>
      simp only [isLayout, Bool.or_eq_true, beq_iff_eq] at hBlank
      rcases hBlank with ((rfl | rfl) | rfl) | rfl
      all_goals exact absurd h (by decide)
  unfold classify
  rw [hLayout, if_neg Bool.false_ne_true]
  split
  all_goals first
    | rfl
    | exact absurd h (by decide)

theorem classify_word (h : isWordStart c = true) :
    classify c cs = lexeme (.ofWord (String.ofList (c :: cs.takeWhile isWordChar)))
      (cs.takeWhile isWordChar).length := by
  rw [classify_other (.inl h), ofOther, isDigit_of_isWordStart h, if_neg Bool.false_ne_true,
    if_pos h]

theorem classify_digit (h : isDigit c = true) :
    classify c cs = lexeme .number (numberLength cs) := by
  rw [classify_other (.inr h), ofOther, if_pos h]

/-- The keywords are spelled like words. -/
theorem keyword_word : ∀ kind ∈ TokenKind.keywords, ∃ c cs, kind.text.toList = c :: cs ∧
    isWordStart c = true ∧ ∀ d ∈ cs, isWordChar d = true := by
  have hAll : ∀ kind ∈ TokenKind.keywords, (kind.text.toList.head?.any isWordStart &&
      kind.text.toList.tail.all isWordChar) = true := by decide
  intro kind hKind
  have hWord := hAll kind hKind
  cases hText : kind.text.toList with
  | nil =>
    rw [hText] at hWord
    cases hWord
  | cons c cs =>
    rw [hText] at hWord
    simp only [List.head?_cons, Option.any_some, List.tail_cons, Bool.and_eq_true,
      List.all_eq_true] at hWord
    exact ⟨c, cs, rfl, hWord.1, hWord.2⟩

/-- A word is a keyword or an identifier. -/
theorem lexeme_word (hStart : isWordStart c = true) (hRest : ∀ d ∈ cs, isWordChar d = true) :
    Lexeme (.ofWord (String.ofList (c :: cs))) (c :: cs) none := by
  unfold TokenKind.ofWord
  cases hFind : TokenKind.keywords.find? fun k => k.text == String.ofList (c :: cs) with
  | none =>
    refine .identifier hStart hRest fun kind hKind hSame => ?_
    have hOther := List.find?_eq_none.mp hFind kind hKind
    exact hOther (by rw [← hSame, String.ofList_toList]; simp)
  | some kind =>
    have hSame : kind.text = String.ofList (c :: cs) := by
      simpa using List.find?_some hFind
    have hChars : kind.text.toList = c :: cs := by rw [hSame, String.toList_ofList]
    rw [← hChars]
    exact .keyword (List.mem_of_find?_eq_some hFind)

/-! ## Numerals -/

/-- A run of characters, and what comes after it. -/
theorem exists_run (p : Char → Bool) (cs : List Char) :
    ∃ run rest, cs = run ++ rest ∧ (∀ d ∈ run, p d = true) ∧
      ∀ d, rest.head? = some d → p d = false := by
  refine ⟨cs.takeWhile p, cs.dropWhile p, List.takeWhile_append_dropWhile.symm,
    fun d hd => List.all_eq_true.mp List.all_takeWhile d hd, fun d hd => ?_⟩
  have hHead := List.head?_dropWhile_not p cs
  rw [hd] at hHead
  simpa using hHead

/-- A point counts only with a digit after it. -/
theorem numberLength_whole {ds rest : List Char} (hDigits : ∀ d ∈ ds, isDigit d = true)
    (hStop : ∀ d, rest.head? = some d → isDigit d = false)
    (hPoint : ∀ e es, rest = '.' :: e :: es → isDigit e = false) :
    numberLength (ds ++ rest) = ds.length := by
  unfold numberLength
  simp only [takeWhile_run hDigits hStop, List.drop_left]
  split
  · next e es =>
    rw [hPoint e es rfl, if_neg Bool.false_ne_true]
  · rfl

theorem numberLength_fraction {ds es rest : List Char} {e : Char}
    (hDigits : ∀ d ∈ ds, isDigit d = true) (hFirst : isDigit e = true)
    (hPlaces : ∀ d ∈ es, isDigit d = true)
    (hStop : ∀ d, rest.head? = some d → isDigit d = false) :
    numberLength (ds ++ '.' :: e :: (es ++ rest)) = ds.length + 2 + es.length := by
  have hPoint : ∀ d, ('.' :: e :: (es ++ rest)).head? = some d → isDigit d = false := by
    intro d hd
    obtain rfl : '.' = d := by simpa using hd
    rfl
  unfold numberLength
  simp only [takeWhile_run hDigits hPoint, List.drop_left, takeWhile_run hPlaces hStop]
  rw [hFirst, if_pos rfl]

/-! ## A lexeme by itself -/

theorem classify_fixed {kind : TokenKind} (hKind : kind ∈ TokenKind.symbols ++ TokenKind.keywords)
    (hText : kind.text.toList = c :: cs) : classify c cs = .lexeme kind cs.length := by
  have hAll : ∀ kind ∈ TokenKind.symbols ++ TokenKind.keywords, kind.text.toList.head?.all
      (fun c => decide (classify c kind.text.toList.tail =
        .lexeme kind kind.text.toList.tail.length)) = true := by decide
  have hHere := hAll kind hKind
  rw [hText] at hHere
  simp only [List.head?_cons, Option.all_some, List.tail_cons] at hHere
  exact of_decide_eq_true hHere

theorem literalOf_fixed {kind : TokenKind}
    (hKind : kind ∈ TokenKind.symbols ++ TokenKind.keywords) (chars : List Char) :
    Token.literalOf kind chars = none := by
  have hAll : ∀ kind ∈ TokenKind.symbols ++ TokenKind.keywords,
      kind ≠ .number ∧ kind ≠ .string := by decide
  unfold Token.literalOf
  split
  · exact absurd rfl (hAll _ hKind).1
  · exact absurd rfl (hAll _ hKind).2
  · rfl

theorem ofWord_of_free (hFree : ∀ kind ∈ TokenKind.keywords, kind.text.toList ≠ chars) :
    TokenKind.ofWord (String.ofList chars) = .identifier := by
  unfold TokenKind.ofWord
  have hNone : (TokenKind.keywords.find? fun k => k.text == String.ofList chars) = none := by
    refine List.find?_eq_none.mpr fun kind hKind hSame => hFree kind hKind ?_
    have hText : kind.text = String.ofList chars := by simpa using hSame
    rw [hText, String.toList_ofList]
  rw [hNone]
  rfl

theorem classify_quote (cs : List Char) : classify '"' cs = ofQuote cs := rfl

theorem ofQuote_closed {body : List Char} (rest : List Char) (hBody : '"' ∉ body) :
    ofQuote (body ++ '"' :: rest) = .lexeme .string (body.length + 1) := by
  unfold ofQuote
  have hFind : (body ++ '"' :: rest).findIdx? (· == '"') = some body.length := by
    rw [List.findIdx?_append]
    have hNone : body.findIdx? (· == '"') = none := by
      rw [List.findIdx?_eq_none_iff]
      intro d hd
      simp only [beq_eq_false_iff_ne]
      rintro rfl
      exact hBody hd
    rw [hNone]
    simp [List.findIdx?_cons]
  rw [hFind]

/-- A lexeme alone is taken whole, with the kind that it has and what it stands for. -/
theorem classify_lexeme (h : Lexeme kind (c :: cs) literal) :
    classify c cs = .lexeme kind cs.length ∧ literal = Token.literalOf kind (c :: cs) := by
  generalize hChars : c :: cs = chars at h
  cases h with
  | symbol known =>
    have hFixed := List.mem_append_left TokenKind.keywords known
    exact ⟨classify_fixed hFixed hChars.symm, (literalOf_fixed hFixed _).symm⟩
  | keyword known =>
    have hFixed := List.mem_append_right TokenKind.symbols known
    exact ⟨classify_fixed hFixed hChars.symm, (literalOf_fixed hFixed _).symm⟩
  | identifier start rest free =>
    cases hChars
    have hAll : (cs ++ []).takeWhile isWordChar = cs := takeWhile_run rest (by simp)
    rw [List.append_nil] at hAll
    rw [classify_word start, hAll, ofWord_of_free free]
    exact ⟨rfl, rfl⟩
  | whole some_digit digits =>
    subst hChars
    obtain ⟨hFirst, hRest⟩ := List.forall_mem_cons.mp digits
    have hLength : numberLength (cs ++ []) = cs.length :=
      numberLength_whole hRest (by simp) (by simp)
    rw [List.append_nil] at hLength
    rw [classify_digit hFirst, hLength]
    exact ⟨rfl, rfl⟩
  | @fraction ds es some_digit digits some_place places =>
    cases ds with
    | nil => exact absurd rfl some_digit
    | cons d ds =>
      rw [List.cons_append] at hChars
      obtain ⟨rfl, rfl⟩ := List.cons.inj hChars
      cases es with
      | nil => exact absurd rfl some_place
      | cons e es =>
        obtain ⟨hFirst, hRest⟩ := List.forall_mem_cons.mp digits
        obtain ⟨hPlace, hPlaces⟩ := List.forall_mem_cons.mp places
        have hLength : numberLength (ds ++ '.' :: e :: (es ++ [])) = ds.length + 2 + es.length :=
          numberLength_fraction hRest hPlace hPlaces (by simp)
        rw [List.append_nil] at hLength
        rw [classify_digit hFirst, hLength]
        refine ⟨?_, rfl⟩
        simp only [List.length_append, List.length_cons]
        congr 1
        omega
  | string closed =>
    rw [List.cons_append] at hChars
    obtain ⟨rfl, rfl⟩ := List.cons.inj hChars
    rw [classify_quote, ofQuote_closed [] closed]
    simp [Token.literalOf]

end Piece

theorem Lexeme.ne_nil {kind : TokenKind} {chars : List Char} {literal : Option Literal}
    (h : Lexeme kind chars literal) : chars ≠ [] := by
  have hText : ∀ kind ∈ TokenKind.symbols ++ TokenKind.keywords, kind.text.toList ≠ [] := by
    decide
  cases h with
  | symbol known => exact hText _ (List.mem_append_left _ known)
  | keyword known => exact hText _ (List.mem_append_right _ known)
  | whole some_digit => exact some_digit
  | identifier | fraction | string => simp

/-- A text is a lexeme in one way only. -/
theorem Lexeme.unique {kind kind' : TokenKind} {chars : List Char}
    {literal literal' : Option Literal} (h : Lexeme kind chars literal)
    (h' : Lexeme kind' chars literal') : kind = kind' ∧ literal = literal' := by
  cases chars with
  | nil => exact absurd rfl h.ne_nil
  | cons c cs =>
    obtain ⟨hPiece, hLiteral⟩ := Piece.classify_lexeme h
    obtain ⟨hPiece', hLiteral'⟩ := Piece.classify_lexeme h'
    cases hPiece.symm.trans hPiece'
    exact ⟨rfl, hLiteral.trans hLiteral'.symm⟩

/-- Two longest lexemes of a text are one. -/
theorem Longest.unique {kind kind' : TokenKind} {chars chars' rest : List Char}
    {literal literal' : Option Literal} (h : Longest kind chars literal rest)
    (h' : Longest kind' chars' literal' rest) :
    kind = kind' ∧ chars = chars' ∧ literal = literal' := by
  have hLength : chars.length = chars'.length :=
    Nat.le_antisymm (h'.longest h.lexeme h.here) (h.longest h'.lexeme h'.here)
  obtain rfl := List.prefix_or_prefix_of_prefix h.here h'.here |>.elim
    (fun hPrefix => hPrefix.eq_of_length hLength)
    (fun hPrefix => (hPrefix.eq_of_length hLength.symm).symm)
  obtain ⟨rfl, rfl⟩ := h.lexeme.unique h'.lexeme
  exact ⟨rfl, rfl, rfl⟩

/-! ## The beginning of a text -/

namespace Lexeme

variable {c d : Char} {cs chars : List Char} {kind : TokenKind} {literal : Option Literal}

/-- What follows the first digit of a numeral. -/
def EndsNumeral (cs : List Char) : Prop :=
  ∃ ds, (∀ d ∈ ds, isDigit d = true) ∧
    (cs = ds ∨ ∃ e es, isDigit e = true ∧ (∀ d ∈ es, isDigit d = true) ∧ cs = ds ++ '.' :: e :: es)

/-- Neither a word, nor a numeral, nor a string begins like a symbol. -/
theorem symbol_head (hKind : kind ∈ TokenKind.symbols) (hText : kind.text.toList = c :: cs) :
    isWordStart c = false ∧ isDigit c = false ∧ c ≠ '"' := by
  have hAll : ∀ kind ∈ TokenKind.symbols, kind.text.toList.head?.all
      (fun c => !isWordStart c && !isDigit c && c != '"') = true := by decide
  have hHere := hAll _ hKind
  rw [hText] at hHere
  simp only [List.head?_cons, Option.all_some, Bool.and_eq_true, Bool.not_eq_true',
    bne_iff_ne, ne_eq] at hHere
  exact ⟨hHere.1.1, hHere.1.2, hHere.2⟩

/-- The first character tells symbols, words, numerals and strings apart. -/
theorem cases_head (h : Lexeme kind (c :: cs) literal) :
    (kind ∈ TokenKind.symbols ∧ kind.text.toList = c :: cs) ∨
    (isWordStart c = true ∧ ∀ d ∈ cs, isWordChar d = true) ∨
    (isDigit c = true ∧ EndsNumeral cs) ∨
    (c = '"' ∧ ∃ body, '"' ∉ body ∧ cs = body ++ ['"']) := by
  generalize hChars : c :: cs = chars at h
  cases h with
  | symbol known =>
    exact .inl ⟨known, rfl⟩
  | keyword known =>
    obtain ⟨c', cs', hText, hStart, hRest⟩ := Piece.keyword_word _ known
    obtain ⟨rfl, rfl⟩ := List.cons.inj (hChars.trans hText)
    exact .inr (.inl ⟨hStart, hRest⟩)
  | identifier start rest =>
    cases hChars
    exact .inr (.inl ⟨start, rest⟩)
  | whole _ digits =>
    subst hChars
    obtain ⟨hFirst, hRest⟩ := List.forall_mem_cons.mp digits
    exact .inr (.inr (.inl ⟨hFirst, cs, hRest, .inl rfl⟩))
  | @fraction ds es some_digit digits some_place places =>
    cases ds with
    | nil => exact absurd rfl some_digit
    | cons d ds =>
      cases es with
      | nil => exact absurd rfl some_place
      | cons e es =>
        rw [List.cons_append] at hChars
        obtain ⟨rfl, rfl⟩ := List.cons.inj hChars
        obtain ⟨hFirst, hRest⟩ := List.forall_mem_cons.mp digits
        obtain ⟨hPlace, hPlaces⟩ := List.forall_mem_cons.mp places
        exact .inr (.inr (.inl ⟨hFirst, ds, hRest, .inr ⟨e, es, hPlace, hPlaces, rfl⟩⟩))
  | @string body closed =>
    rw [List.cons_append] at hChars
    obtain ⟨rfl, rfl⟩ := List.cons.inj hChars
    exact .inr (.inr (.inr ⟨rfl, body, closed, rfl⟩))

/-- A lexeme that a text begins with has the first character of the text. -/
theorem exists_tail (h : Lexeme kind chars literal) (hHere : chars <+: c :: cs) :
    ∃ tail, chars = c :: tail ∧ tail <+: cs := by
  cases chars with
  | nil => exact absurd rfl h.ne_nil
  | cons c' tail =>
    obtain ⟨rfl, hTail⟩ := List.cons_prefix_cons.mp hHere
    exact ⟨tail, rfl, hTail⟩

end Lexeme

/-- Characters of a kind at the beginning of a text do not go beyond the run of them. -/
theorem length_le_of_run {p : Char → Bool} {cs run rest : List Char} (hAll : ∀ d ∈ cs, p d = true)
    (hHere : cs <+: run ++ rest) (hStop : ∀ d, rest.head? = some d → p d = false) :
    cs.length ≤ run.length := by
  induction run generalizing cs with
  | nil =>
    cases cs with
    | nil => exact Nat.le_refl _
    | cons d cs =>
      obtain ⟨more, rfl⟩ := hHere
      have hFirst := hStop d rfl
      rw [hAll d List.mem_cons_self] at hFirst
      cases hFirst
  | cons d run ih =>
    cases cs with
    | nil => exact Nat.zero_le _
    | cons d' cs =>
      rw [List.cons_append] at hHere
      have hRest := (List.cons_prefix_cons.mp hHere).2
      exact Nat.succ_le_succ (ih (fun d hd => hAll d (List.mem_cons_of_mem _ hd)) hRest)

namespace Longest

variable {c : Char} {cs run rest : List Char} {kind : TokenKind}

theorem word (hStart : isWordStart c = true) (hRun : ∀ d ∈ run, isWordChar d = true)
    (hStop : ∀ d, rest.head? = some d → isWordChar d = false) :
    Longest (.ofWord (String.ofList (c :: run))) (c :: run) none (c :: (run ++ rest)) where
  lexeme := Piece.lexeme_word hStart hRun
  here := ⟨rest, rfl⟩
  longest {kind' chars' literal'} h hHere := by
    obtain ⟨tail, rfl, hTail⟩ := h.exists_tail hHere
    rcases h.cases_head with ⟨hKind, hText⟩ | ⟨-, hAll⟩ | ⟨hDigit, -⟩ | ⟨rfl, -⟩
    · rw [(Lexeme.symbol_head hKind hText).1] at hStart
      cases hStart
    · exact Nat.succ_le_succ (length_le_of_run hAll hTail hStop)
    · rw [Piece.isDigit_of_isWordStart hStart] at hDigit
      cases hDigit
    · exact absurd hStart (by decide)

/-- A string runs to the next double quote. -/
theorem string {body : List Char} (rest : List Char) (hBody : '"' ∉ body) :
    Longest .string ('"' :: body ++ ['"']) (some (.text (String.ofList body)))
      ('"' :: (body ++ '"' :: rest)) where
  lexeme := .string hBody
  here := ⟨rest, by simp⟩
  longest {kind' chars' literal'} h hHere := by
    obtain ⟨tail, rfl, hTail⟩ := h.exists_tail hHere
    rcases h.cases_head with ⟨hKind, hText⟩ | ⟨hStart, -⟩ | ⟨hDigit, -⟩ | ⟨-, body', hBody', rfl⟩
    · exact absurd rfl (Lexeme.symbol_head hKind hText).2.2
    · exact absurd hStart (by decide)
    · exact absurd hDigit (by decide)
    · have hAll : ∀ d ∈ body', (d != '"') = true := by
        intro d hd
        simp only [bne_iff_ne, ne_eq]
        rintro rfl
        exact hBody' hd
      have hHere' : body' <+: body ++ '"' :: rest :=
        (List.prefix_append body' _).trans hTail
      have hLength := length_le_of_run hAll hHere' (by simp)
      simp only [List.length_cons, List.length_append]
      omega

end Longest

/-- A character that ends a run at the beginning of a text ends the run of the text. -/
theorem run_eq_of_prefix {p : Char → Bool} {q : Char} {cs more run rest : List Char}
    (hAll : ∀ d ∈ cs, p d = true) (hEnd : p q = false) (hRun : ∀ d ∈ run, p d = true)
    (hStop : ∀ d, rest.head? = some d → p d = false) (hHere : cs ++ q :: more <+: run ++ rest) :
    cs = run ∧ q :: more <+: rest := by
  induction run generalizing cs with
  | nil =>
    cases cs with
    | nil => exact ⟨rfl, hHere⟩
    | cons d cs =>
      obtain ⟨after, rfl⟩ := hHere
      have hFirst := hStop d rfl
      rw [hAll d List.mem_cons_self] at hFirst
      cases hFirst
  | cons d run ih =>
    obtain ⟨hd, hRun'⟩ := List.forall_mem_cons.mp hRun
    cases cs with
    | nil =>
      obtain ⟨rfl, -⟩ := List.cons_prefix_cons.mp hHere
      rw [hd] at hEnd
      cases hEnd
    | cons d' cs =>
      rw [List.cons_append, List.cons_append] at hHere
      obtain ⟨rfl, hRest⟩ := List.cons_prefix_cons.mp hHere
      obtain ⟨rfl, hMore⟩ := ih (fun d hd => hAll d (List.mem_cons_of_mem _ hd)) hRun' hRest
      exact ⟨rfl, hMore⟩

namespace Longest

variable {c e : Char} {cs run rest : List Char} {kind : TokenKind}

/-- A lexeme that begins with a digit is a numeral. -/
theorem endsNumeral_of_digit {kind' : TokenKind} {literal' : Option Literal}
    (hDigit : isDigit c = true) (h : Lexeme kind' (c :: cs) literal') : Lexeme.EndsNumeral cs := by
  rcases h.cases_head with ⟨hKind, hText⟩ | ⟨hStart, -⟩ | ⟨-, hEnds⟩ | ⟨rfl, -⟩
  · rw [(Lexeme.symbol_head hKind hText).2.1] at hDigit
    cases hDigit
  · rw [Piece.isDigit_of_isWordStart hStart] at hDigit
    cases hDigit
  · exact hEnds
  · exact absurd hDigit (by decide)

theorem whole (hDigit : isDigit c = true) (hRun : ∀ d ∈ run, isDigit d = true)
    (hStop : ∀ d, rest.head? = some d → isDigit d = false)
    (hPoint : ∀ e es, rest = '.' :: e :: es → isDigit e = false) :
    Longest .number (c :: run) (some (.number (Token.numberOf (c :: run))))
      (c :: (run ++ rest)) where
  lexeme := .whole (by simp) (List.forall_mem_cons.mpr ⟨hDigit, hRun⟩)
  here := ⟨rest, rfl⟩
  longest {kind' chars' literal'} h hHere := by
    obtain ⟨tail, rfl, hTail⟩ := h.exists_tail hHere
    obtain ⟨ds, hDigits, rfl | ⟨e, es, hFirst, hPlaces, rfl⟩⟩ := endsNumeral_of_digit hDigit h
    · exact Nat.succ_le_succ (length_le_of_run hDigits hTail hStop)
    · obtain ⟨-, after, hAfter⟩ := run_eq_of_prefix hDigits (by decide) hRun hStop hTail
      rw [hPoint e (es ++ after) hAfter.symm] at hFirst
      cases hFirst

theorem fraction {es : List Char} (hDigit : isDigit c = true)
    (hRun : ∀ d ∈ run, isDigit d = true) (hFirst : isDigit e = true)
    (hPlaces : ∀ d ∈ es, isDigit d = true)
    (hStop : ∀ d, rest.head? = some d → isDigit d = false) :
    Longest .number (c :: run ++ '.' :: e :: es)
      (some (.number (Token.numberOf (c :: run ++ '.' :: e :: es))))
      (c :: (run ++ '.' :: e :: (es ++ rest))) where
  lexeme := .fraction (by simp) (List.forall_mem_cons.mpr ⟨hDigit, hRun⟩) (by simp)
    (List.forall_mem_cons.mpr ⟨hFirst, hPlaces⟩)
  here := ⟨rest, by simp⟩
  longest {kind' chars' literal'} h hHere := by
    obtain ⟨tail, rfl, hTail⟩ := h.exists_tail hHere
    have hPoint : ∀ d, ('.' :: e :: (es ++ rest)).head? = some d → isDigit d = false := by
      intro d hd
      obtain rfl : '.' = d := by simpa using hd
      rfl
    obtain ⟨ds, hDigits, rfl | ⟨e', es', -, hPlaces', rfl⟩⟩ := endsNumeral_of_digit hDigit h
    · have hLength := length_le_of_run hDigits hTail hPoint
      simp only [List.length_cons, List.length_append]
      omega
    · obtain ⟨rfl, hAfter⟩ := run_eq_of_prefix hDigits (by decide) hRun hPoint hTail
      obtain ⟨-, hAfter⟩ := List.cons_prefix_cons.mp hAfter
      have hLength := length_le_of_run hPlaces' (List.cons_prefix_cons.mp hAfter).2 hStop
      simp only [List.length_cons, List.length_append]
      omega

/-- A symbol is the longest lexeme if all symbols that begin like it and go on like the text are
no longer. -/
theorem symbol (hKind : kind ∈ TokenKind.symbols) (hText : kind.text.toList = c :: run)
    (hLongest : ∀ kind' ∈ TokenKind.symbols, ∀ tail, kind'.text.toList = c :: tail →
      tail <+: run ++ rest → tail.length ≤ run.length) :
    Longest kind (c :: run) none (c :: (run ++ rest)) where
  lexeme := hText ▸ .symbol hKind
  here := ⟨rest, rfl⟩
  longest {kind' chars' literal'} h hHere := by
    obtain ⟨tail, rfl, hTail⟩ := h.exists_tail hHere
    obtain ⟨hWord, hDigit, hQuote⟩ := Lexeme.symbol_head hKind hText
    rcases h.cases_head with ⟨hKind', hText'⟩ | ⟨hWord', -⟩ | ⟨hDigit', -⟩ | ⟨hQuote', -⟩
    · exact Nat.succ_le_succ (hLongest kind' hKind' tail hText' hTail)
    · rw [hWord] at hWord'
      cases hWord'
    · rw [hDigit] at hDigit'
      cases hDigit'
    · exact absurd hQuote' hQuote

end Longest

/-! ## What the scanner takes -/

namespace Piece

variable {c : Char} {cs : List Char} {kind : TokenKind} {more : Nat} {cause : LexCause}

/-- The characters of which no symbol is longer than one. -/
def alone : List Char :=
  ['(', ')', '\x7b', '\x7d', '[', ']', ',', '.', ';', '-', '+', '*', '%', '/']

theorem symbol_alone (hAlone : c ∈ alone) {tail : List Char} (hKind : kind ∈ TokenKind.symbols)
    (hText : kind.text.toList = c :: tail) : tail = [] := by
  have hAll : ∀ kind ∈ TokenKind.symbols, kind.text.toList.head?.all
      (fun c => decide (c ∈ alone → kind.text.toList.tail = [])) = true := by decide
  have hHere := hAll kind hKind
  rw [hText] at hHere
  exact of_decide_eq_true hHere hAlone

theorem symbol_orEqual (hEqual : c ∈ ['!', '=', '<', '>']) {tail : List Char}
    (hKind : kind ∈ TokenKind.symbols) (hText : kind.text.toList = c :: tail) :
    tail = [] ∨ tail = ['='] := by
  have hAll : ∀ kind ∈ TokenKind.symbols, kind.text.toList.head?.all
      (fun c => decide (c ∈ ['!', '=', '<', '>'] →
        kind.text.toList.tail = [] ∨ kind.text.toList.tail = ['='])) = true := by decide
  have hHere := hAll kind hKind
  rw [hText] at hHere
  exact of_decide_eq_true hHere hEqual

theorem symbol_doubled (hDoubled : c ∈ ['&', '|']) {tail : List Char}
    (hKind : kind ∈ TokenKind.symbols) (hText : kind.text.toList = c :: tail) : tail = [c] := by
  have hAll : ∀ kind ∈ TokenKind.symbols, kind.text.toList.head?.all
      (fun c => decide (c ∈ ['&', '|'] → kind.text.toList.tail = [c])) = true := by decide
  have hHere := hAll kind hKind
  rw [hText] at hHere
  exact of_decide_eq_true hHere hDoubled

/-- The piece is the longest lexeme of the text, and stands for what the scanner says. -/
abbrev Munches (kind : TokenKind) (more : Nat) (c : Char) (cs : List Char) : Prop :=
  Longest kind (c :: cs.take more) (Token.literalOf kind (c :: cs.take more)) (c :: cs)

theorem munches_symbol (run rest : List Char) (hKind : kind ∈ TokenKind.symbols)
    (hText : kind.text.toList = c :: run)
    (hLongest : ∀ kind' ∈ TokenKind.symbols, ∀ tail, kind'.text.toList = c :: tail →
      tail <+: run ++ rest → tail.length ≤ run.length) :
    Munches kind run.length c (run ++ rest) := by
  have hLongest := Longest.symbol hKind hText hLongest
  unfold Munches
  rw [List.take_left, literalOf_fixed (List.mem_append_left _ hKind)]
  exact hLongest

theorem munches_alone (hAlone : c ∈ alone) (hKind : kind ∈ TokenKind.symbols)
    (hText : kind.text.toList = [c]) (cs : List Char) : Munches kind 0 c cs := by
  refine munches_symbol [] cs hKind hText fun kind' hKind' tail hText' _ => ?_
  obtain rfl := symbol_alone hAlone hKind' hText'
  exact Nat.le_refl _

theorem munches_orEqual {short long : TokenKind} (hEqual : c ∈ ['!', '=', '<', '>'])
    (hShort : short ∈ TokenKind.symbols) (hLong : long ∈ TokenKind.symbols)
    (hShortText : short.text.toList = [c]) (hLongText : long.text.toList = [c, '='])
    (h : orEqual short long cs = .lexeme kind more) : Munches kind more c cs := by
  have hLength : ∀ kind' ∈ TokenKind.symbols, ∀ tail, kind'.text.toList = c :: tail →
      tail.length ≤ 1 := by
    intro kind' hKind' tail hText'
    rcases symbol_orEqual hEqual hKind' hText' with rfl | rfl
    · exact Nat.zero_le _
    · exact Nat.le_refl _
  unfold orEqual at h
  split at h
  · next rest =>
    cases h
    exact munches_symbol ['='] rest hLong hLongText
      fun kind' hKind' tail hText' _ => hLength kind' hKind' tail hText'
  · next hOther =>
    cases h
    refine munches_symbol [] cs hShort hShortText ?_
    intro kind' hKind' tail hText' hTail
    rcases symbol_orEqual hEqual hKind' hText' with rfl | rfl
    · exact Nat.le_refl _
    · obtain ⟨rest, hRest⟩ := hTail
      exact absurd hRest.symm (hOther rest)

theorem munches_doubled {double : TokenKind} (hDoubled : c ∈ ['&', '|'])
    (hKind : double ∈ TokenKind.symbols) (hText : double.text.toList = [c, c])
    (h : doubled double c cs = .lexeme kind more) : Munches kind more c cs := by
  unfold doubled at h
  split at h
  · next d rest =>
    split at h
    · next hSame =>
      cases h
      rw [hSame]
      refine munches_symbol [c] rest hKind hText ?_
      intro kind' hKind' tail hText' _
      obtain rfl := symbol_doubled hDoubled hKind' hText'
      exact Nat.le_refl _
    · cases h
  · cases h

theorem munches_slash (h : ofSlash cs = .lexeme kind more) : Munches kind more '/' cs := by
  unfold ofSlash at h
  split at h
  · cases h
  · split at h <;> cases h
  · cases h
    exact munches_alone (by decide) (by decide) (by decide) cs

/-- A text up to the first double quote. -/
theorem exists_body {n : Nat} (h : cs.findIdx? (· == '"') = some n) :
    ∃ body rest, cs = body ++ '"' :: rest ∧ body.length = n ∧ '"' ∉ body := by
  obtain ⟨body, rest, rfl, hBody, hStop⟩ := exists_run (· != '"') cs
  have hFree : '"' ∉ body := fun hMem => absurd (hBody _ hMem) (by decide)
  cases rest with
  | nil =>
    rw [List.append_nil, List.findIdx?_eq_none_iff.mpr] at h
    · cases h
    · intro d hd
      simpa using hBody d hd
  | cons d rest =>
    obtain rfl : d = '"' := by simpa using hStop d rfl
    refine ⟨body, rest, rfl, ?_, hFree⟩
    have hPiece := ofQuote_closed rest hFree
    unfold ofQuote at hPiece
    rw [h] at hPiece
    simpa using hPiece.symm

theorem munches_quote (h : ofQuote cs = .lexeme kind more) : Munches kind more '"' cs := by
  unfold ofQuote at h
  split at h
  · next n hFind =>
    cases h
    obtain ⟨body, rest, rfl, rfl, hBody⟩ := exists_body hFind
    have hTake : (body ++ '"' :: rest).take (body.length + 1) = body ++ ['"'] := by
      rw [List.take_length_add_append]
      rfl
    have hLongest := Longest.string rest hBody
    unfold Munches
    rw [hTake]
    simpa [Token.literalOf] using hLongest
  · cases h

theorem munches_word (hStart : isWordStart c = true)
    (h : classify c cs = .lexeme kind more) : Munches kind more c cs := by
  rw [classify_word hStart] at h
  cases h
  obtain ⟨run, rest, rfl, hRun, hStop⟩ := exists_run isWordChar cs
  have hTake : (run ++ rest).takeWhile isWordChar = run := takeWhile_run hRun hStop
  have hLiteral : ∀ chars, Token.literalOf (.ofWord (String.ofList (c :: run))) chars = none := by
    intro chars
    unfold Token.literalOf
    split
    · next hKind => exact absurd hKind (TokenKind.ofWord_ne (by decide) (by decide))
    · next hKind => exact absurd hKind (TokenKind.ofWord_ne (by decide) (by decide))
    · rfl
  rw [hTake]
  unfold Munches
  rw [List.take_left, hLiteral]
  exact Longest.word hStart hRun hStop

theorem munches_digit (hDigit : isDigit c = true)
    (h : classify c cs = .lexeme kind more) : Munches kind more c cs := by
  rw [classify_digit hDigit] at h
  cases h
  obtain ⟨run, rest, rfl, hRun, hStop⟩ := exists_run isDigit cs
  by_cases hPoint : ∃ e es, rest = '.' :: e :: es ∧ isDigit e = true
  · obtain ⟨e, after, rfl, hFirst⟩ := hPoint
    obtain ⟨es, rest, rfl, hPlaces, hStop'⟩ := exists_run isDigit after
    have hTake : (run ++ '.' :: e :: (es ++ rest)).take (run.length + 2 + es.length) =
        run ++ '.' :: e :: es := by
      have hSplit : run ++ '.' :: e :: (es ++ rest) = (run ++ '.' :: e :: es) ++ rest := by simp
      rw [hSplit]
      exact List.take_left' (by simp; omega)
    rw [numberLength_fraction hRun hFirst hPlaces hStop']
    unfold Munches
    rw [hTake]
    exact Longest.fraction hDigit hRun hFirst hPlaces hStop'
  · have hWhole : ∀ e es, rest = '.' :: e :: es → isDigit e = false := by
      intro e es hRest
      exact Bool.not_eq_true _ ▸ fun hDigit => hPoint ⟨e, es, hRest, hDigit⟩
    rw [numberLength_whole hRun hStop hWhole]
    unfold Munches
    rw [List.take_left]
    exact Longest.whole hDigit hRun hStop hWhole

/-- What the scanner takes from a text is the longest lexeme that the text begins with. -/
theorem longest_of_classify (h : classify c cs = .lexeme kind more) : Munches kind more c cs := by
  by_cases hWord : isWordStart c = true
  · exact munches_word hWord h
  by_cases hDigit : isDigit c = true
  · exact munches_digit hDigit h
  unfold classify at h
  split at h
  · cases h
  · split at h
    all_goals first
      | exact munches_slash h
      | exact munches_quote h
      | exact munches_orEqual (by decide) (by decide) (by decide) (by decide) (by decide) h
      | exact munches_doubled (by decide) (by decide) (by decide) h
      | (cases h; exact munches_alone (by decide) (by decide) (by decide) cs)
      | exact absurd h (by simp [ofOther, hWord, hDigit])

end Piece

end Tern
