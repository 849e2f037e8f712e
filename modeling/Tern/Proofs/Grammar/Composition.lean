import Tern.Proofs.Grammar.SideBySide
import Tern.Proofs.Token.Juxtaposition

/-!
# Programs compose

A source whose last statement is closed can be followed, on the next line, by any other source: the
statements of both are the statements of the whole. Reading the first source, the parser never looks
past its last token, except for an `elif` or an `else`, with which no source begins. Behind that
token it is where it would be at the beginning of the second source, only on a lower line.

* `Comparison.joint`: a row of tokens and a longer one;
* `Comparison.lowered`: a row of tokens and the same row on lower lines;
* `Program.failure_of_parse`: a source that is a program is cut to its end;
* `Program.opens_of_stream`: with what a program begins;
* `Program.parse_append`: one source below another.
-/

namespace Tern

open Tern.Parser Grammar

/-! ## The two comparisons -/

/-- The second row goes on where the first one ends. -/
def Comparison.joint (finish follow : Token) (later : List Token) (hEnd : finish.kind = .endOfInput)
    (hApart : follow.kind ≠ .kwElif ∧ follow.kind ≠ .kwElse) : Comparison where
  like t t' := t = t'
  left := id
  right := id
  finish := finish
  follow := follow
  later := later
  isOpen := True
  face h := h ▸ rfl
  spans h h' := by rw [h, h']
  ending := hEnd
  apart _ := hApart

/-- The second row stands some lines further down. -/
def Comparison.lowered (lines : Nat) (finish : Token) (hEnd : finish.kind = .endOfInput) :
    Comparison where
  like t t' := t' = t.down lines
  left := Option.map (Span.down lines)
  right := id
  finish := finish
  follow := finish.down lines
  later := []
  isOpen := False
  face h := h ▸ rfl
  spans h h' := by rw [h, h']; rfl
  ending := hEnd
  apart := False.elim

/-! ## Programs and their statements -/

theorem exists_statements_of_program {s s' : Input} {p : Program}
    (h : program s = .ok (p, s')) :
    ∃ body, Comparison.statements (s.size + 1) [] s = .ok (body, s') ∧ p.body = body.reverse := by
  obtain ⟨start, s₁, hStart, hRest⟩ := exists_of_bind h
  obtain rfl := peek_stays hStart
  obtain ⟨body, s₂, hBody, hFinish⟩ := exists_of_bind hRest
  obtain ⟨finish, s₃, hPeek, hDone⟩ := exists_of_bind hFinish
  obtain rfl := peek_stays hPeek
  cases hDone
  exact ⟨body, hBody, rfl⟩

theorem exists_program_of_statements {s s' : Input} {t t' : Token} {rest rest' : List Token}
    {body : List Stmt} (hStart : s.rest = t :: rest)
    (h : Comparison.statements (s.size + 1) [] s = .ok (body, s')) (hEnd : s'.rest = t' :: rest') :
    ∃ p, program s = .ok (p, s') ∧ p.body = body.reverse := by
  refine ⟨⟨body.reverse, some ⟨t.pos, t'.pos⟩⟩, ?_, rfl⟩
  rw [Comparison.program_eq, bind_ok (peek_cons hStart)]
  have hBody : (do Comparison.statements ((← get).size + 1) [] : Parser _) s = .ok (body, s') := h
  rw [bind_ok hBody, bind_ok (peek_cons hEnd)]
  rfl

namespace Program

/-- What begins a program begins a statement. -/
theorem opens_of_stream {stream : TokenStream} {p : Program} (h : ofStream? stream = .ok p) :
    stream.terminals = [] ∨ Form.Opens Form.opensStatement stream.terminals := by
  have hWhole := whole_of_stream h
  unfold Form.Whole at hWhole
  generalize p.body = body at hWhole
  generalize stream.terminals = xs at hWhole
  cases hWhole with
  | nil => exact .inl rfl
  | cons hHead _ => exact .inr (forms_declaration_opens hHead).append

/-- A source that is a program is cut to its end. -/
theorem failure_of_parse {source : String} {p : Program} (h : parse? source = .ok p) :
    (TokenStream.ofSource source).failure = none := by
  have hStart : Cut source.toList [] [] source.toList := .start
  rcases hStart.complete with ⟨tokens, hWhole⟩ | ⟨tokens, error, hStuck⟩
  · rw [TokenStream.ofSource_of_decomposes hWhole]
  · refine failure_of_stream h ?_
    rw [TokenStream.ofSource_of_sticks hStuck]
    obtain ⟨done, t, rest, hCut, -⟩ := hStuck
    exact fun t ht => (hCut.lexeme_of_mem t ht).kind_ne_end

/-! ## One row behind another -/

section

variable {ts us : List Token} {finish finish' : Token} {lines : Nat} {p q : Program}

/-- The parser comes through the statements of the first row, and has the second one ahead then. -/
theorem exists_run_of_first (hKinds : ∀ t ∈ ts, t.kind ≠ .endOfInput)
    (hEnd : finish.kind = .endOfInput) (hCloses : ∀ t ∈ ts.getLast?, t.kind.closes = true)
    {follow : Token} (later : List Token)
    (hApart : follow.kind ≠ .kwElif ∧ follow.kind ≠ .kwElse)
    (h : ofStream? ⟨ts ++ [finish], none⟩ = .ok p) :
    ∃ fuel u, Comparison.statements ((ts ++ follow :: later).length + 1) []
        (.ofStream ⟨ts ++ follow :: later, none⟩) = Comparison.statements fuel p.body.reverse u ∧
      u.rest = follow :: later ∧ u.rest.length ≤ u.size ∧ u.rest.length < fuel := by
  obtain ⟨s, hRun⟩ := exists_of_stream h
  obtain ⟨body, hBody, hReverse⟩ := exists_statements_of_program hRun
  rw [hReverse, List.reverse_reverse]
  rcases List.eq_nil_or_concat ts with rfl | ⟨front, t, rfl⟩
  · have hRest : (Input.ofStream ⟨[] ++ [finish], none⟩).rest = [finish] := rfl
    rw [Comparison.statements_end hRest hEnd] at hBody
    cases hBody
    exact ⟨_, _, rfl, rfl, Nat.le_refl _, Nat.lt_succ_self _⟩
  · let D := Comparison.joint finish follow later hEnd hApart
    have hRows : D.Rows (front ++ [t, finish]) (front ++ t :: follow :: later) :=
      D.rows_of_open trivial (hCloses t (by simp)) rfl (List.forall₂_same.mpr fun _ _ => rfl)
        fun t ht => hKinds t (by simp [ht])
    have hLeft : front.concat t ++ [finish] = front ++ [t, finish] := by simp
    have hRight : front.concat t ++ follow :: later = front ++ t :: follow :: later := by simp
    rw [hLeft] at hBody
    rw [hRight]
    have hFacing : D.Facing False (front ++ [t, finish]).length
        (.ofStream ⟨front ++ [t, finish], none⟩)
        (.ofStream ⟨front ++ t :: follow :: later, none⟩) :=
      ⟨hRows, nofun, Nat.le_refl _, Nat.le_refl _, Nat.le_refl _⟩
    have hEnough : (front ++ [t, finish]).length + D.later.length <
        (front ++ t :: follow :: later).length + 1 := by
      rw [hRows.length_eq]
      exact Nat.lt_succ_self _
    obtain ⟨fuel, body', u, hGo, hSame, hPast, hMore⟩ := D.statements_past trivial hFacing
      (Nat.lt_add_one _) hEnough Comparison.same_nil hBody
    have hBodies : body = body' := by
      change body.map (Stmt.respan id) = body'.map (Stmt.respan id) at hSame
      rwa [funext Stmt.respan_id, List.map_id', List.map_id'] at hSame
    subst hBodies
    refine ⟨fuel, u, hGo, hPast.right_rest, hPast.right_size, ?_⟩
    rw [hPast.right_rest]
    exact hMore

/-- Where the tokens of the second row are ahead on lower lines, the parser reads its statements. -/
theorem exists_run_of_second (hKinds : ∀ t ∈ us, t.kind ≠ .endOfInput)
    (hEnd : finish'.kind = .endOfInput) (h : ofStream? ⟨us ++ [finish'], none⟩ = .ok q)
    {before : List Stmt} {fuel : Nat} {u : Input}
    (hRest : u.rest = (us ++ [finish']).map (Token.down lines)) (hSize : u.rest.length ≤ u.size)
    (hFuel : u.rest.length < fuel) :
    ∃ body u' t' rest', Comparison.statements fuel before u = .ok (body, u') ∧
      u'.rest = t' :: rest' ∧
      body.reverse = before.reverse ++ q.body.map (Stmt.respan (Option.map (Span.down lines))) := by
  obtain ⟨s, hRun⟩ := exists_of_stream h
  obtain ⟨body, hBody, hReverse⟩ := exists_statements_of_program hRun
  replace hBody : Comparison.statements ((us ++ [finish']).length + 1) []
    (.ofStream ⟨us ++ [finish'], none⟩) = .ok (body, s) := hBody
  let D := Comparison.lowered lines finish' hEnd
  have hLike : List.Forall₂ (fun t t' : Token => t' = t.down lines) us (us.map (Token.down lines)) :=
    List.forall₂_map_right_iff.mpr (List.forall₂_same.mpr fun _ _ => rfl)
  have hRows : D.Rows (us ++ [finish']) (us.map (Token.down lines) ++ [finish'.down lines]) :=
    D.rows_of_shut id rfl hLike hKinds
  have hLower : u.rest = us.map (Token.down lines) ++ [finish'.down lines] := by
    rw [hRest, List.map_append]
    rfl
  have hFacing : D.Facing False (us ++ [finish']).length (.ofStream ⟨us ++ [finish'], none⟩) u :=
    ⟨hLower ▸ hRows, nofun, Nat.le_refl _, Nat.le_refl _, hSize⟩
  have hEnough : (us ++ [finish']).length + D.later.length < fuel := by
    rwa [← hRows.length_eq, ← hLower]
  have hOutcome := D.tracks_statements id before (Nat.lt_add_one _) hEnough _ u hFacing
  rw [hBody] at hOutcome
  generalize hRight : Comparison.statements fuel before u = y at hOutcome
  cases hOutcome with
  | @done _ body' _ u' hSame hPost =>
    obtain ⟨front, hFront, rfl⟩ := hSame
    obtain ⟨t, t', ts, ts', -, hAhead, -⟩ := hPost.rows.exists_cons
    refine ⟨_, u', t', ts', rfl, hAhead, ?_⟩
    change body.map (Stmt.respan (Option.map (Span.down lines))) = front.map (Stmt.respan id)
      at hFront
    rw [funext Stmt.respan_id, List.map_id'] at hFront
    rw [List.reverse_append, ← hFront, hReverse, List.map_reverse]

/-- Neither `elif` nor `else` begins a program. -/
theorem exists_first (lines : Nat) (hEnd : finish'.kind = .endOfInput)
    (h : ofStream? ⟨us ++ [finish'], none⟩ = .ok q) :
    ∃ follow later, (us ++ [finish']).map (Token.down lines) = follow :: later ∧
      follow.kind ≠ .kwElif ∧ follow.kind ≠ .kwElse := by
  cases us with
  | nil =>
    refine ⟨finish'.down lines, [], rfl, ?_⟩
    change finish'.kind ≠ .kwElif ∧ finish'.kind ≠ .kwElse
    rw [hEnd]
    decide
  | cons t us =>
    refine ⟨t.down lines, (us ++ [finish']).map (Token.down lines), rfl, ?_⟩
    change t.kind ≠ .kwElif ∧ t.kind ≠ .kwElse
    by_cases hKind : t.kind = .endOfInput
    · rw [hKind]
      decide
    · have hOpens := opens_of_stream h
      rw [TokenStream.terminals, List.cons_append, Token.terminals_cons hKind] at hOpens
      obtain ⟨_, _, hFirst, hSuitable⟩ := hOpens.resolve_left (List.cons_ne_nil _ _)
      obtain ⟨rfl, -⟩ := List.cons.inj hFirst
      rw [Token.kind_terminal] at hSuitable
      constructor
      all_goals
        intro hOther
        rw [hOther] at hSuitable
        cases hSuitable

/-- The statements of two rows are those of both rows one behind the other. -/
theorem ofStream_append (hKinds : ∀ t ∈ ts, t.kind ≠ .endOfInput)
    (hKinds' : ∀ t ∈ us, t.kind ≠ .endOfInput) (hEnd : finish.kind = .endOfInput)
    (hEnd' : finish'.kind = .endOfInput) (hCloses : ∀ t ∈ ts.getLast?, t.kind.closes = true)
    (h : ofStream? ⟨ts ++ [finish], none⟩ = .ok p)
    (h' : ofStream? ⟨us ++ [finish'], none⟩ = .ok q) :
    ∃ r, ofStream? ⟨ts ++ (us ++ [finish']).map (Token.down lines), none⟩ = .ok r ∧
      r.body = p.body ++ q.body.map (Stmt.respan (Option.map (Span.down lines))) := by
  obtain ⟨follow, later, hRow, hApart⟩ := exists_first lines hEnd' h'
  obtain ⟨fuel, u, hGo, hRest, hSize, hFuel⟩ :=
    exists_run_of_first hKinds hEnd hCloses later hApart h
  obtain ⟨body, u', t', rest', hRun, hAhead, hBody⟩ := exists_run_of_second hKinds' hEnd' h'
    (hRest.trans hRow.symm) hSize hFuel
  obtain ⟨t, rest, hStart⟩ : ∃ t rest, ts ++ follow :: later = t :: rest :=
    List.exists_cons_of_ne_nil (by simp)
  obtain ⟨r, hProgram, hReverse⟩ := exists_program_of_statements
    (s := .ofStream ⟨ts ++ follow :: later, none⟩) hStart (hGo.trans hRun) hAhead
  refine ⟨r, ?_, by rw [hReverse, hBody, List.reverse_reverse]⟩
  rw [hRow]
  change (program (.ofStream ⟨ts ++ follow :: later, none⟩) >>= fun q => pure q.1) = _
  rw [hProgram]
  rfl

end

/-- Sources compose. A source whose last lexeme, if it has any, closes a statement can be followed,
on the next line, by any other one: the whole is a program with the statements of both, those of the
second one with all lines moved down. -/
theorem parse_append {a b : String} {p q : Program} (hFirst : parse? a = .ok p)
    (hSecond : parse? b = .ok q)
    (hCloses : ∀ t ∈ (TokenStream.ofSource a).lexemes.getLast?,
      t.kind = .semicolon ∨ t.kind = .rightBrace) :
    ∃ r, parse? (a ++ "\n" ++ b) = .ok r ∧ r.body = p.body ++
      q.body.map (Stmt.respan (Option.map (Span.down (1 + a.toList.count '\n')))) := by
  have hFailure := failure_of_parse hFirst
  obtain ⟨hTokens, -, hLexemes⟩ := TokenStream.ofSource_eq hFailure
  obtain ⟨hTokens', -, hLexemes'⟩ := TokenStream.ofSource_eq (failure_of_parse hSecond)
  have hJoined := TokenStream.ofSource_append b hFailure
  rw [hTokens'] at hJoined
  rw [parse?, hTokens] at hFirst
  rw [parse?, hTokens'] at hSecond
  rw [parse?, hJoined]
  refine ofStream_append (fun t ht => (hLexemes t ht).kind_ne_end)
    (fun t ht => (hLexemes' t ht).kind_ne_end) rfl rfl (fun t ht => ?_) hFirst hSecond
  rcases hCloses t ht with hKind | hKind
  · rw [hKind]
    rfl
  · rw [hKind]
    rfl

theorem exists_of_isOk {source : String} (h : (parse? source).isOk = true) :
    ∃ p, parse? source = .ok p := by
  cases hParse : parse? source with
  | ok p => exact ⟨p, rfl⟩
  | error e =>
    rw [hParse] at h
    cases h

/-- A statement with a comment after it that only the line break ends, and one more statement. -/
theorem parse_append_comment : ∃ p q r, parse? "a; // b" = .ok p ∧ parse? "c;" = .ok q ∧
    (TokenStream.ofSource "a; // b").lexemes.getLast?.map (·.kind) = some .semicolon ∧
    parse? "a; // b\nc;" = .ok r ∧ r.body = p.body ++
      q.body.map (Stmt.respan (Option.map (Span.down (1 + "a; // b".toList.count '\n')))) := by
  have hLast : (TokenStream.ofSource "a; // b").lexemes.getLast?.map (·.kind) = some .semicolon := by
    decide +kernel
  obtain ⟨p, hFirst⟩ : ∃ p, parse? "a; // b" = .ok p := exists_of_isOk (by decide +kernel)
  obtain ⟨q, hSecond⟩ : ∃ q, parse? "c;" = .ok q := exists_of_isOk (by decide +kernel)
  obtain ⟨r, hBoth, hBody⟩ := parse_append hFirst hSecond fun t ht => by
    rw [ht] at hLast
    exact .inl (Option.some.inj hLast)
  exact ⟨p, q, r, hFirst, hSecond, hLast, hBoth, hBody⟩

end Program

end Tern
