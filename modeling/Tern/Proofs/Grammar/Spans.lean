import Tern.Proofs.Grammar.Composition
import Tern.Proofs.Grammar.Drawing
import Tern.Proofs.Token.Order

/-!
# Spans

The nodes of a tree are drawn from parts of the row of tokens, one within the other or one behind
the other, and the tokens of a source stand in order. So spans nest, and the children of a node
stand one behind the other. A node stops where its last token does. That is the place behind the
last character of the token, unless the token has a line feed in it, as a string may have.

* `Program.exists_row_of_parse`: the nodes of a program are drawn from the tokens of its source;
* `Span.Frames`: a span that has a node and its children in order;
* `Program.spans_nest`: the spans of a program nest;
* `Program.span_stops`: where they stop.
-/

namespace Tern

open Node (InRow)

/-! ## Rows in order -/

namespace Token

variable {row : List Token} {t u : Token}

theorem InOrder.head_le (h : InOrder row) (ht : row.head? = some t) (hu : u ∈ row) :
    t.pos ≤ u.pos := by
  obtain ⟨rest, rfl⟩ := List.head?_eq_some_iff.mp ht
  rcases List.mem_cons.mp hu with rfl | hu
  · exact le_rfl
  · exact t.pos_le_stop.trans (List.rel_of_pairwise_cons h hu)

theorem InOrder.le_last (h : InOrder row) (ht : row.getLast? = some t) (hu : u ∈ row) :
    u.stop ≤ t.stop := by
  obtain ⟨front, rfl⟩ := List.getLast?_eq_some_iff.mp ht
  obtain ⟨-, -, hLast⟩ := List.pairwise_append.mp h
  rcases List.mem_append.mp hu with hu | hu
  · exact (hLast u hu t (List.mem_singleton_self t)).trans t.pos_le_stop
  · rw [List.mem_singleton.mp hu]

end Token

namespace Node

variable {row : List Token} {n : Node} {ns : List Node}

theorem DrawnFrom.ne_nil (h : n.DrawnFrom row) : row ≠ [] := by
  obtain ⟨-, hSpelled, -, -⟩ := h
  rintro rfl
  cases n with
  | program => exact hSpelled
  | stmt s =>
    obtain ⟨⟨room, ctx, hForm⟩, -⟩ := hSpelled
    exact (forms_declaration_opens hForm).ne_nil rfl
  | elif e =>
    obtain ⟨room, ctx, hForm⟩ := hSpelled
    cases hForm
  | expr e =>
    obtain ⟨room, ctx, hForm⟩ := hSpelled
    exact (forms_expression_opens _ _ hForm).ne_nil rfl

/-- The span of a node that is drawn from a row. -/
theorem DrawnFrom.exists_span (h : n.DrawnFrom row) : ∃ t u, row.head? = some t ∧
    row.getLast? = some u ∧ n.span = some ⟨t.pos, u.stop⟩ := by
  obtain ⟨t, rest, rfl⟩ := List.exists_cons_of_ne_nil h.ne_nil
  obtain ⟨-, -, hSpan, -⟩ := h
  refine ⟨t, _, rfl, List.getLast?_cons, ?_⟩
  rw [hSpan, Token.rowSpan, List.head?_cons, List.getLast?_cons]

/-- Nodes of a row that is in order: each has its span there, and stops before the next one
starts. -/
theorem InRow.spans (hOrder : Token.InOrder row) (h : InRow row ns) :
    (∀ n ∈ ns, ∃ t ∈ row, ∃ u ∈ row, n.span = some ⟨t.pos, u.stop⟩) ∧
      ns.Pairwise fun n m => ∀ s s', n.span = some s → m.span = some s' → s.stop ≤ s'.start := by
  induction h with
  | done => exact ⟨nofun, .nil⟩
  | @next gap row rest n ns hHere _ ih =>
    obtain ⟨-, hBoth, -⟩ := List.pairwise_append.mp hOrder
    obtain ⟨-, hRest, hApart⟩ := List.pairwise_append.mp hBoth
    obtain ⟨hSpans, hLater⟩ := ih hRest
    obtain ⟨t, u, ht, hu, hSpan⟩ := hHere.exists_span
    have hLast : u ∈ row := List.mem_of_getLast? hu
    refine ⟨List.forall_mem_cons.mpr ⟨?_, fun m hm => ?_⟩, List.pairwise_cons.mpr ⟨?_, hLater⟩⟩
    · exact ⟨t, by simp [List.mem_of_head? ht], u, by simp [hLast], hSpan⟩
    · obtain ⟨x, hx, y, hy, hSpan⟩ := hSpans m hm
      exact ⟨x, by simp [hx], y, by simp [hy], hSpan⟩
    · intro m hm s s' hs hs'
      obtain ⟨x, hx, y, -, hSpan'⟩ := hSpans m hm
      rw [hSpan] at hs
      rw [hSpan'] at hs'
      cases hs
      cases hs'
      exact hApart u hLast x hx

end Node

/-- The span has the node and its children in order: it starts where a token of the row does, goes
forward, has the spans of the children in it, and those are one behind the other. -/
structure Span.Frames (tokens : List Token) (n : Node) (span : Span) : Prop where
  isSpan : n.span = some span
  starts : ∃ t ∈ tokens, span.start = t.pos
  forward : span.start ≤ span.stop
  inside : ∀ c ∈ n.children, ∃ s, c.span = some s ∧ span.start ≤ s.start ∧ s.stop ≤ span.stop
  apart : n.children.Pairwise fun c d =>
    ∀ s s', c.span = some s → d.span = some s' → s.stop ≤ s'.start

variable {tokens row : List Token} {n : Node}

theorem Span.frames_of_row {span : Span} (hOrder : Token.InOrder row)
    (hRow : InRow row n.children) (isSpan : n.span = some span)
    (starts : ∃ t ∈ tokens, span.start = t.pos) (forward : span.start ≤ span.stop)
    (hFirst : ∀ t ∈ row, span.start ≤ t.pos) (hLast : ∀ t ∈ row, t.stop ≤ span.stop) :
    span.Frames tokens n := by
  obtain ⟨hSpans, hApart⟩ := hRow.spans hOrder
  refine ⟨isSpan, starts, forward, fun c hc => ?_, hApart⟩
  obtain ⟨t, ht, u, hu, hSpan⟩ := hSpans c hc
  exact ⟨_, hSpan, hFirst t ht, hLast u hu⟩

theorem Node.DrawnFrom.frames (h : n.DrawnFrom row) (hPart : row <:+: tokens)
    (hOrder : Token.InOrder tokens) : ∃ span : Span, span.Frames tokens n := by
  have hOwn : Token.InOrder row := List.Pairwise.sublist hPart.sublist hOrder
  obtain ⟨t, u, ht, hu, hSpan⟩ := h.exists_span
  have hMem : u ∈ row := List.mem_of_getLast? hu
  obtain ⟨-, -, -, hParts⟩ := h
  refine ⟨⟨t.pos, u.stop⟩, Span.frames_of_row hOwn hParts hSpan
    ⟨t, hPart.subset (List.mem_of_head? ht), rfl⟩ ?_ (fun v hv => hOwn.head_le ht hv)
    fun v hv => hOwn.le_last hu hv⟩
  exact (hOwn.head_le ht hMem).trans u.pos_le_stop

/-! ## Programs -/

namespace Program

variable {source : String} {p : Program}

/-- A program is drawn from the tokens of its source, the end of input aside. -/
theorem drawn_of_parse (h : parse? source = .ok p) : ∃ start finish,
    (TokenStream.ofSource source).tokens = (TokenStream.ofSource source).lexemes ++ [finish] ∧
      (TokenStream.ofSource source).tokens.head? = some start ∧
      p.span = some ⟨start.pos, finish.pos⟩ ∧
      InRow (TokenStream.ofSource source).lexemes (Node.program p).children := by
  obtain ⟨hStream, -, hLexemes⟩ := TokenStream.ofSource_eq (failure_of_parse h)
  have hTokens := congrArg TokenStream.tokens hStream
  obtain ⟨row, rest, start, finish, hSplit, hWords, hEnd, hRow, hSpan, hStart, hFinish⟩ :=
    exists_row_of_stream h
  have hBoth := hSplit.symm.trans hTokens
  have hSame : row = (TokenStream.ofSource source).lexemes ∧
      rest = [Token.eof (Position.place source.toList)] := by
    rcases List.append_eq_append_iff.mp hBoth with ⟨more, hMore, hRest⟩ | ⟨more, hMore, hRest⟩
    · cases more with
      | nil => exact ⟨by simpa using hMore.symm, hRest⟩
      | cons t more =>
        have hMem : t ∈ (TokenStream.ofSource source).lexemes := by simp [hMore]
        exact absurd (hEnd t (by simp [hRest])) (hLexemes t hMem).kind_ne_end
    · cases more with
      | nil => exact ⟨by simpa using hMore, hRest.symm⟩
      | cons t more =>
        have hMem : t ∈ row := by simp [hMore]
        have hEof : t = Token.eof (Position.place source.toList) := (List.cons.inj hRest).1.symm
        exact absurd (by rw [hEof]; rfl) (hWords t hMem)
  obtain ⟨rfl, rfl⟩ := hSame
  obtain rfl := hFinish _ rfl
  obtain ⟨first, hFirst⟩ : ∃ first, (TokenStream.ofSource source).tokens.head? = some first := by
    rw [hTokens]
    cases (TokenStream.ofSource source).lexemes <;> exact ⟨_, rfl⟩
  obtain rfl := hStart first hFirst
  exact ⟨start, _, hSplit, hFirst, hSpan, hRow⟩

/-- Whatever stands in a program is drawn from a part of the tokens of its source. -/
theorem row_of_parse (h : parse? source = .ok p) : ∀ n ∈ (Node.program p).children,
    n.All fun m => ∃ row, row <:+: (TokenStream.ofSource source).lexemes ∧ m.DrawnFrom row := by
  obtain ⟨start, finish, -, -, -, hRow⟩ := drawn_of_parse h
  intro n hn
  obtain ⟨part, hPart, hDrawn⟩ := hRow.exists_part hn
  exact hDrawn.all_rows hPart

/-- Spans nest: whatever stands in a program that is parsed from a source has a span that starts
where a token of the source does, goes forward, and has the spans of its children in it, one behind
the other. -/
theorem spans_nest (h : parse? source = .ok p) : Node.All
    (fun n => ∃ span : Span, span.Frames (TokenStream.ofSource source).tokens n)
    (.program p) := by
  have hOrder := TokenStream.inOrder_ofSource (failure_of_parse h)
  obtain ⟨start, finish, hTokens, hStart, hSpan, hRow⟩ := drawn_of_parse h
  have hPart : (TokenStream.ofSource source).lexemes <:+: (TokenStream.ofSource source).tokens :=
    ⟨[], [finish], hTokens.symm⟩
  refine .mk ⟨⟨start.pos, finish.pos⟩, ?_⟩ fun c hc => (row_of_parse h c hc).mono ?_
  · have hMem : finish ∈ (TokenStream.ofSource source).tokens := by simp [hTokens]
    have hLast : ∀ t ∈ (TokenStream.ofSource source).lexemes, t.stop ≤ finish.pos := by
      rw [hTokens] at hOrder
      exact fun t ht => (List.pairwise_append.mp hOrder).2.2 t ht _ (List.mem_singleton_self _)
    exact Span.frames_of_row (List.Pairwise.sublist hPart.sublist hOrder) hRow hSpan
      ⟨start, List.mem_of_head? hStart, rfl⟩ (hOrder.head_le hStart hMem)
      (fun t ht => hOrder.head_le hStart (hPart.subset ht)) hLast
  · rintro n ⟨row, hSmaller, hDrawn⟩
    exact hDrawn.frames (hSmaller.trans hPart) hOrder

/-- A string over two lines, in parentheses, and a statement without a semicolon. -/
theorem spans_nest_lines : ∃ p, parse? "(\"a\nb\") + c // d" = .ok p ∧ Node.All
    (fun n => ∃ span : Span,
      span.Frames (TokenStream.ofSource "(\"a\nb\") + c // d").tokens n) (.program p) := by
  obtain ⟨p, hParse⟩ : ∃ p, parse? "(\"a\nb\") + c // d" = .ok p :=
    exists_of_isOk (by decide +kernel)
  exact ⟨p, hParse, spans_nest hParse⟩

/-- Where the spans of a program stop: each part of it has a last token, which stands in the source,
and stops where that token does. This is the place behind the last character of the token if and
only if there is no line feed in the token. -/
theorem span_stops (h : parse? source = .ok p) : ∀ c ∈ (Node.program p).children, c.All fun n =>
    ∃ row t before span, n.DrawnFrom row ∧ row <:+: (TokenStream.ofSource source).lexemes ∧
      row.getLast? = some t ∧ t.StandsIn source.toList before ∧ n.span = some span ∧
      span.stop = t.stop ∧
      (span.stop = Position.place (before ++ t.lexeme.toList) ↔ '\n' ∉ t.lexeme.toList) := by
  intro c hc
  refine (row_of_parse h c hc).mono ?_
  rintro n ⟨row, hPart, hDrawn⟩
  obtain ⟨t, u, -, hLast, hSpan⟩ := hDrawn.exists_span
  obtain ⟨before, hStands⟩ := TokenStream.standsIn_ofSource (failure_of_parse h) u
    (hPart.subset (List.mem_of_getLast? hLast))
  exact ⟨row, u, before, _, hDrawn, hPart, hLast, hStands, hSpan, rfl, Token.stop_eq_iff hStands⟩

/-- A string over two lines does not stop where it ends, nor does the statement that it is. -/
theorem span_stops_string : ∃ p s, parse? "\"a\nb\";" = .ok p ∧
    s ∈ (Node.program p).children ∧ ∃ row t before span, s.DrawnFrom row ∧
      row.getLast? = some t ∧ t.StandsIn "\"a\nb\";".toList before ∧ s.span = some span ∧
      span.stop = ⟨1, 6⟩ ∧ span.stop ≠ Position.place (before ++ t.lexeme.toList) := by
  obtain ⟨p, hParse⟩ : ∃ p, parse? "\"a\nb\";" = .ok p := exists_of_isOk (by decide +kernel)
  have hBody : (parse? "\"a\nb\";").toOption.map (fun p => p.body.map Stmt.span) =
      some [some ⟨⟨1, 1⟩, ⟨1, 6⟩⟩] := by decide +kernel
  have hLexemes : (TokenStream.ofSource "\"a\nb\";").lexemes.map (fun t => (t.lexeme, t.stop)) =
      [("\"a\nb\"", ⟨1, 6⟩), (";", ⟨2, 4⟩)] := by decide +kernel
  rw [hParse] at hBody
  obtain ⟨s, hSingle, hSpan⟩ := List.map_eq_singleton_iff.mp (Option.some.inj hBody)
  have hChild : .stmt s ∈ (Node.program p).children := by simp [Node.children, hSingle]
  obtain ⟨row, t, before, span, hDrawn, hPart, hLast, hStands, hSome, hStop, hIff⟩ :=
    (span_stops hParse (.stmt s) hChild).here
  obtain rfl : span = ⟨⟨1, 1⟩, ⟨1, 6⟩⟩ := Option.some.inj (hSome.symm.trans hSpan)
  refine ⟨p, .stmt s, hParse, hChild, row, t, before, _, hDrawn, hLast, hStands, hSpan, rfl,
    fun hPlace => ?_⟩
  -- of the two tokens only the string stops there
  have hMem := List.mem_map_of_mem (f := fun t : Token => (t.lexeme, t.stop))
    (hPart.subset (List.mem_of_getLast? hLast))
  rw [hLexemes, List.mem_pair] at hMem
  rcases hMem with hString | hSemicolon
  · rw [(Prod.mk.inj hString).1] at hIff hPlace
    exact hIff.mp hPlace (by decide)
  · exact absurd (hStop.trans (Prod.mk.inj hSemicolon).2) (by decide)

end Program

end Tern
