import Tern.Proofs.Grammar.Completion
import Tern.Proofs.Grammar.Composition
import Tern.Proofs.Grammar.Finality

/-!
# Incomplete sources that can be completed

A source is viable if the prompt parser, which looks at the target of an assignment before it reads
the value, reads it or stops early once its last string or comment is closed. What is viable with
one level of nesting to spare can be completed: there are lines that make it a program. And what
lines can make a program is viable. So a source that is reported incomplete, and is not viable,
waits for lines that do not exist: it assigns to what is no target, say.

* `closed`: a source whose last string or comment is closed;
* `Program.isViable`: sources that are read, or stop early, when they are closed;
* `Program.completed_of_viable`, `Program.viable_of_more`: the two directions;
* `viable_completable`: both, for sources that are no programs.
-/

namespace Tern

open Grammar

/-! ## Closed sources -/

/-- What closes the string or the comment in which a stream stops. -/
def TokenStream.closing (s : TokenStream) : String :=
  match s.failure with
  | some ⟨.openString, _⟩ => "\""
  | some ⟨.openComment, _⟩ => "*/"
  | _ => ""

/-- A source with one more line, on which the last string or comment is closed. -/
def closed (source : String) : String :=
  source ++ "\n" ++ (TokenStream.ofSource source).closing

namespace TokenStream

variable {a b : String} {tokens tokens' later : List Token} {pos : Position}

theorem trailing_of_decomposes (h : Decomposes a.toList tokens)
    (hLonger : (ofSource b).tokens = tokens' ++ later)
    (hLike : List.Forall₂ Token.Like tokens tokens') :
    (ofSource a).failure = none ∧ Trailing (ofSource a).tokens (ofSource b).tokens := by
  have hKinds : ∀ t ∈ tokens, t.kind ≠ .endOfInput := by
    obtain ⟨done, rest, hCut, -⟩ := h
    exact fun t ht => (hCut.lexeme_of_mem t ht).kind_ne_end
  rw [ofSource_of_decomposes h, hLonger]
  refine ⟨rfl, Trailing.append hLike hKinds later fun t ht => ?_⟩
  cases ht
  rfl

theorem toList_closed {source closing : String} (h : (ofSource source).closing = closing) :
    (closed source).toList = source.toList ++ '\n' :: closing.toList := by
  rw [closed, h, toList_lines]

theorem trailing_closed_whole (h : Decomposes a.toList tokens) (more : String) :
    (ofSource (closed a)).failure = none ∧
      Trailing (ofSource (closed a)).tokens (ofSource (a ++ "\n" ++ more)).tokens := by
  have hClosing : (ofSource a).closing = "" := by rw [ofSource_of_decomposes h]; rfl
  obtain ⟨done, rest, hCut, hTrivia⟩ := h
  obtain ⟨later, hLonger⟩ := exists_later hCut more
  have hBefore : Trivia rest (['\n'] ++ []) := hTrivia.extend
  have hWhole : Decomposes (closed a).toList tokens := by
    rw [toList_closed hClosing]
    exact ⟨done, rest ++ ['\n'], hCut.extend, hBefore.append (.blank rfl .nil)⟩
  exact trailing_of_decomposes hWhole hLonger (Token.forall_like tokens)

theorem trailing_closed_comment (h : Sticks a.toList tokens ⟨.openComment, pos⟩) (more : String) :
    (ofSource (closed a)).failure = none ∧
      Trailing (ofSource (closed a)).tokens (ofSource (a ++ "\n" ++ more)).tokens := by
  have hClosing : (ofSource a).closing = "*/" := by rw [ofSource_of_sticks h]; rfl
  have hWhole : Decomposes (closed a).toList tokens := by
    rw [toList_closed hClosing]
    exact h.close_comment
  obtain ⟨done, t, rest, hCut, -⟩ := h
  obtain ⟨later, hLonger⟩ := exists_later hCut more
  exact trailing_of_decomposes hWhole hLonger (Token.forall_like tokens)

/-- The first quote of the lines closes the string, whatever else it then has in it. -/
theorem trailing_closed_string {more : String} (h : Sticks a.toList tokens ⟨.openString, pos⟩)
    (hMore : (ofSource (a ++ "\n" ++ more)).failure = none) :
    (ofSource (closed a)).failure = none ∧
      Trailing (ofSource (closed a)).tokens (ofSource (a ++ "\n" ++ more)).tokens := by
  have hClosing : (ofSource a).closing = "\"" := by rw [ofSource_of_sticks h]; rfl
  have hQuote : '"' ∈ more.toList := by
    by_contra hNone
    rw [ofSource_of_sticks (toList_lines a more ▸ h.open_string hNone)] at hMore
    cases hMore
  obtain ⟨body, after, hSplit, hBody⟩ := List.eq_append_cons_of_mem hQuote
  obtain ⟨done, t, hCut, ht⟩ := h.close_string [] [] List.not_mem_nil
  obtain ⟨done', t', hCut', ht'⟩ := h.close_string body after hBody
  obtain ⟨later, hLonger⟩ := exists_of_cut (a := a ++ "\n" ++ more)
    (by rw [toList_lines, hSplit]; exact hCut')
  have hWhole : Decomposes (closed a).toList (tokens ++ [t]) := by
    rw [toList_closed hClosing]
    exact ⟨done, [], hCut, .nil⟩
  have hLike : t.Like t' := by
    refine ⟨ht'.trans ht.symm, fun hName => ?_⟩
    rw [ht] at hName
    cases hName
  exact trailing_of_decomposes hWhole hLonger
    (List.rel_append (Token.forall_like tokens) (.cons hLike .nil))

/-- The tokens of a closed source stop where those of a source with any more lines go on, unless
these lines leave it in trouble. -/
theorem trailing_closed {source more : String}
    (h : (ofSource (source ++ "\n" ++ more)).failure = none) :
    (ofSource (closed source)).failure = none ∧
      Trailing (ofSource (closed source)).tokens (ofSource (source ++ "\n" ++ more)).tokens := by
  have hStart : Cut source.toList [] [] source.toList := .start
  rcases hStart.complete with ⟨tokens, hWhole⟩ | ⟨tokens, ⟨cause, pos⟩, hStuck⟩
  · exact trailing_closed_whole hWhole more
  cases cause with
  | stray c =>
    have hStream := ofSource_of_sticks hStuck
    have hFailure : (ofSource source).failure = some ⟨.stray c, pos⟩ := by rw [hStream]
    rw [ofSource_stray more hFailure, hStream] at h
    cases h
  | openComment => exact trailing_closed_comment hStuck more
  | openString => exact trailing_closed_string hStuck h

/-! ## Terminals of sources -/

theorem terminals_of_tokens {s : TokenStream} {u : Token} (hTokens : s.tokens = tokens ++ [u])
    (hKinds : ∀ t ∈ tokens, t.kind ≠ .endOfInput) (hEnd : u.kind = .endOfInput) :
    s.terminals = tokens.map Token.terminal := by
  rw [terminals, hTokens, Token.terminals, List.takeWhile_append_of_pos (by simpa using hKinds)]
  simp [hEnd]

/-- The terminals of one source below another. -/
theorem terminals_append (h : (ofSource a).failure = none) (h' : (ofSource b).failure = none) :
    (ofSource (a ++ "\n" ++ b)).failure = none ∧
      (ofSource (a ++ "\n" ++ b)).terminals = (ofSource a).terminals ++ (ofSource b).terminals := by
  obtain ⟨hFirst, -, hLexemes⟩ := ofSource_eq h
  obtain ⟨hSecond, -, hLexemes'⟩ := ofSource_eq h'
  have hJoined := ofSource_append b h
  have hKinds : ∀ t ∈ (ofSource a).lexemes, t.kind ≠ .endOfInput := fun t ht =>
    (hLexemes t ht).kind_ne_end
  have hKinds' : ∀ t ∈ (ofSource b).lexemes, t.kind ≠ .endOfInput := fun t ht =>
    (hLexemes' t ht).kind_ne_end
  rw [terminals_of_tokens (congrArg TokenStream.tokens hFirst) hKinds rfl,
    terminals_of_tokens (congrArg TokenStream.tokens hSecond) hKinds' rfl]
  rw [hSecond, List.map_append, List.map_singleton, ← List.append_assoc] at hJoined
  refine ⟨by rw [hJoined]; rfl, ?_⟩
  rw [terminals_of_tokens (congrArg TokenStream.tokens hJoined) ?_ rfl, List.map_append,
    List.map_map]
  · rfl
  · refine List.forall_mem_append.mpr ⟨hKinds, List.forall_mem_map.mpr hKinds'⟩

/-- Terminals that can be written down are those of a source. -/
theorem exists_of_written {ys : List Terminal} (h : ∀ y ∈ ys, y.Written) :
    ∃ source, (ofSource source).failure = none ∧ (ofSource source).terminals = ys := by
  obtain ⟨ts, rfl, hLexemes⟩ : ∃ ts : List Token, ts.map Token.terminal = ys ∧
      ∀ t ∈ ts, Lexeme t.kind t.lexeme.toList t.literal := by
    induction ys with
    | nil => exact ⟨[], rfl, nofun⟩
    | cons y ys ih =>
      obtain ⟨⟨t, ht, hLexeme⟩, hLater⟩ := List.forall_mem_cons.mp h
      obtain ⟨ts, hts, hLexemes⟩ := ih hLater
      exact ⟨t :: ts, by rw [List.map_cons, ht, hts], List.forall_mem_cons.mpr ⟨hLexeme, hLexemes⟩⟩
  obtain ⟨us, stop, hScan, hFaces⟩ := scan_spaced ts hLexemes [] Position.first
  refine ⟨" ".intercalate (ts.map (·.lexeme)), ?_⟩
  have hStream : ofSource (" ".intercalate (ts.map (·.lexeme))) =
      ⟨us ++ [Token.eof stop], none⟩ := by
    rw [ofSource, String.toList_intercalate, List.map_map]
    exact hScan
  have hKinds : ∀ u ∈ us, u.kind ≠ .endOfInput := by
    intro u hu
    have hMem : u.face ∈ ts.map Token.face := hFaces ▸ List.mem_map_of_mem hu
    obtain ⟨t, ht, hSame⟩ := List.mem_map.mp hMem
    have hKind : t.kind = u.kind := congrArg Prod.fst hSame
    exact hKind ▸ (hLexemes t ht).kind_ne_end
  rw [hStream, terminals_of_tokens rfl hKinds rfl]
  -- a terminal does not tell where its token stands
  have hTerminals := congrArg (List.map fun x : TokenKind × String × Option Literal =>
    (Token.mk x.1 x.2.1 .first x.2.2).terminal) hFaces
  rw [List.map_map, List.map_map] at hTerminals
  exact ⟨rfl, hTerminals⟩

end TokenStream

/-! ## Viable sources -/

namespace Program

/-- Whether the prompt parser reads a source, or stops early, once the source is closed. -/
def isViable (room : Nat) (source : String) : Bool :=
  let stream := TokenStream.ofSource (closed source)
  stream.failure.isNone && match programOf (promptLevel room) (.ofStream stream) with
    | .ok _ => true
    | .error e => e.isEarly

/-- With one level to spare, lines that complete a viable source are found. -/
theorem completed_of_viable {source : String} (h : isViable (maxNesting - 1) source = true) :
    ∃ more p, parse? (source ++ "\n" ++ more) = .ok p := by
  obtain ⟨hClean, hRun⟩ := Bool.and_eq_true_iff.mp h
  rw [Option.isNone_iff_eq_none] at hClean
  obtain ⟨ys, body, hWritten, hSeries⟩ := exists_completion (maxNesting - 1)
    (s := .ofStream (.ofSource (closed source))) hClean (Token.length_terminals_le _)
    fun e hError => by rwa [hError] at hRun
  obtain ⟨rest, hRest, hTerminals⟩ := TokenStream.exists_of_written hWritten
  obtain ⟨hFailure, hAll⟩ := TokenStream.terminals_append hClean hRest
  have hWhole : Form.Whole (TokenStream.ofSource (closed source ++ "\n" ++ rest)).terminals
      ⟨body, none⟩ := by
    rw [hAll, hTerminals]
    exact hSeries
  obtain ⟨q, hRead, -⟩ := of_whole hFailure hWhole
  refine ⟨(TokenStream.ofSource source).closing ++ "\n" ++ rest, q, ?_⟩
  have hText : source ++ "\n" ++ ((TokenStream.ofSource source).closing ++ "\n" ++ rest) =
      closed source ++ "\n" ++ rest := by simp only [closed, String.append_assoc]
  rw [hText]
  exact hRead

example : ∃ more p, parse? ("f([1, \"two" ++ "\n" ++ more) = .ok p :=
  completed_of_viable (by decide +kernel)

/-- What more lines make a program is viable. -/
theorem viable_of_more {source more : String} {p : Program}
    (h : parse? (source ++ "\n" ++ more) = .ok p) : isViable maxNesting source = true := by
  obtain ⟨v, hRun⟩ := exists_of_stream h
  obtain ⟨hClean, hRows⟩ := TokenStream.trailing_closed (failure_of_parse h)
  refine Bool.and_eq_true_iff.mpr ⟨Option.isNone_iff_eq_none.mpr hClean, ?_⟩
  have hTrouble : ∀ e ∈ (TokenStream.ofSource (closed source)).failure,
      (SyntaxError.lex e).isEarly = true := by
    rw [hClean]
    nofun
  rcases ends_of_trailing (trails_promptLevel maxNesting) hRows hTrouble hRun
    with ⟨q, s, hShort⟩ | ⟨e, hShort, hEarly⟩
  · rw [hShort]
  · rw [hShort]
    exact hEarly

end Program

/-- Of the sources that are no programs, those that are viable with one level of nesting to spare
are reported incomplete and can be completed; and what can be completed is viable and is reported
incomplete. So a source that is reported incomplete and is not viable cannot be completed. -/
theorem viable_completable {source : String} {e : SyntaxError}
    (hParse : Program.parse? source = .error e) :
    (Program.isViable (maxNesting - 1) source = true →
      isIncomplete source = true ∧ ∃ more p, Program.parse? (source ++ "\n" ++ more) = .ok p) ∧
    ∀ more p, Program.parse? (source ++ "\n" ++ more) = .ok p →
      isIncomplete source = true ∧ Program.isViable maxNesting source = true := by
  have hIncomplete : ∀ more p, Program.parse? (source ++ "\n" ++ more) = .ok p →
      isIncomplete source = true := by
    intro more p hMore
    rcases Program.early_of_more hMore with ⟨q, hRead⟩ | hEarly
    · rw [hParse] at hRead
      cases hRead
    · exact hEarly
  refine ⟨fun hViable => ?_, fun more p hMore => ?_⟩
  · obtain ⟨more, p, hMore⟩ := Program.completed_of_viable hViable
    exact ⟨hIncomplete more p hMore, more, p, hMore⟩
  · exact ⟨hIncomplete more p hMore, Program.viable_of_more hMore⟩

/-- A number is no target, and that shows only when the value has been read: an assignment to it is
reported incomplete though no more lines make it a program. -/
theorem viable_completable_number : isIncomplete "1 =" = true ∧
    ∀ more, ∃ e, Program.parse? ("1 =" ++ "\n" ++ more) = .error e := by
  have hFails : (Program.parse? "1 =").isOk = false := by decide +kernel
  obtain ⟨e, hParse⟩ : ∃ e, Program.parse? "1 =" = .error e := by
    cases hRead : Program.parse? "1 =" with
    | ok p =>
      rw [hRead] at hFails
      cases hFails
    | error e => exact ⟨e, rfl⟩
  have hViable : Program.isViable maxNesting "1 =" = false := by decide +kernel
  refine ⟨by decide +kernel, fun more => ?_⟩
  cases hMore : Program.parse? ("1 =" ++ "\n" ++ more) with
  | error e' => exact ⟨e', rfl⟩
  | ok p =>
    have hBoth := (viable_completable hParse).2 more p hMore
    rw [hViable] at hBoth
    cases hBoth.2

end Tern
