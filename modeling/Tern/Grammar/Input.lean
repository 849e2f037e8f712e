import Tern.Grammar.Error
import Tern.Syntax.Basic

/-!
# Reading tokens

The state of a parse is the tokens ahead and the token last taken. Tokens are looked at only
when they are needed, so an error of the lexer surfaces when the parse first looks past the
last good token.

* `Parser` is the type of parsers, `peek`, `advance`, `accept` and `expect` its elements;
* `chain` repeats a parser. Each round takes a token, so the number of tokens bounds it.
-/

namespace Tern

/-- The tokens ahead, the token last taken, the error after the tokens, and the number of
tokens at the start. -/
structure Input where
  rest : List Token
  last : Option Token
  failure : Option LexError
  size : Nat

/-- A parser of `α`. -/
abbrev Parser (α : Type) := StateT Input (Except SyntaxError) α

/-- The state in which a stream has not been touched. -/
def Input.ofStream (s : TokenStream) : Input :=
  ⟨s.tokens, none, s.failure, s.tokens.length⟩

/-- The end of input that follows tokens which do not have one. -/
def Input.missingEnd (s : Input) : Token :=
  .eof (match s.last with
    | some t => t.stop
    | none => .first)

namespace Parser

/-- Fails at a token. -/
def failAt {α : Type} (t : Token) (cause : ParseCause) : Parser α :=
  throw (.parse ⟨cause, t.describe, t.pos⟩)

/-- The token ahead. -/
def peek : Parser Token := fun s =>
  match s.rest, s.failure with
  | t :: _, _ => .ok (t, s)
  | [], some e => .error (.lex e)
  | [], none => .ok (s.missingEnd, s)

/-- Takes the token ahead; the end of input is never taken. -/
def advance : Parser Token := do
  let t ← peek
  if t.kind = .endOfInput then pure t
  else
    modify fun s => { s with rest := s.rest.tail, last := some t }
    pure t

/-- Whether the token ahead is of a kind. -/
def check (kind : TokenKind) : Parser Bool := do
  let t ← peek
  pure (t.kind = kind)

/-- Takes the token ahead if its kind is wanted, and tells what it was wanted for. -/
def acceptAs {β : Type} (wanted : TokenKind → Option β) : Parser (Option β) := do
  let t ← peek
  match wanted t.kind with
  | some b =>
    let _ ← advance
    pure (some b)
  | none => pure none

/-- Takes the token ahead if it is of a kind. -/
def accept (kind : TokenKind) : Parser Bool := do
  if ← check kind then
    let _ ← advance
    pure true
  else pure false

/-- Takes the token ahead, which must be of a kind. -/
def expect (kind : TokenKind) (wanted : String) : Parser Token := do
  let t ← peek
  if t.kind = kind then advance else failAt t (.unexpected wanted)

/-- The token last taken. -/
def previous : Parser Token := do
  match (← get).last with
  | some t => pure t
  | none => peek

/-- The span from a token to the token last taken. -/
def spanFrom (start : Token) : Parser (Option Span) := do
  let s ← get
  pure (some ⟨start.pos, (s.last.getD start).stop⟩)

/-- An identifier. -/
def ident (wanted : String) : Parser Ident := do
  let t ← expect .identifier wanted
  pure ⟨t.lexeme, ← spanFrom t⟩

/-- Whether nothing but the end of input, or a closing brace, is ahead. -/
def atClose : Parser Bool := do
  let t ← peek
  pure (t.kind = .rightBrace || t.kind = .endOfInput)

/-- Repeats `step` as long as `more` has something for it. -/
def chainUpTo {α β : Type} (more : Parser (Option β)) (step : α → β → Parser α) :
    Nat → α → Parser α
  | 0, a => pure a
  | fuel + 1, a => do
    match ← more with
    | none => pure a
    | some b =>
      let a ← step a b
      chainUpTo more step fuel a

/-- Repeats `step` as long as `more` has something for it; each round must take a token. -/
def chain {α β : Type} (more : Parser (Option β)) (step : α → β → Parser α) (a : α) :
    Parser α := do
  let s ← get
  chainUpTo more step (s.size + 1) a

/-- Items up to a closing brace or the end of input. -/
def untilClose {α : Type} (item : Parser α) : Parser (List α) := do
  let more : Parser (Option Unit) := do
    if ← atClose then pure none else pure (some ())
  let items ← chain more (fun items _ => do pure ((← item) :: items)) []
  pure items.reverse

/-- Items with commas between them, none at all if the closing kind is ahead. `item` is told
the items before, the last one first. -/
def commaSeparated {α : Type} (close : TokenKind) (item : List α → Parser α) :
    Parser (List α) := do
  if ← check close then pure []
  else
    let first ← item []
    let more : Parser (Option Unit) := do
      if ← accept .comma then pure (some ()) else pure none
    let items ← chain more (fun items _ => do pure ((← item items) :: items)) [first]
    pure items.reverse

end Parser

end Tern
