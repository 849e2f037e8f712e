import Tern.Proofs.Grammar.Reading
import Tern.Proofs.Grammar.Taking

/-!
# Where a text stops

An error is early if it says no more than that the text stops: the end of input stands where
something else is wanted, or a string or a comment has not been closed. Where nothing but the end of
a text, or such trouble, is ahead, every parser of the grammar that ends takes nothing, and every
one that fails fails early. Those that want something there fail, and only they do.

* `SyntaxError.isEarly`, `isIncomplete_eq`: the errors of texts that stop early;
* `Input.Over`: nothing is ahead any more;
* `Parser.Rests`: what a parser does there, and `Parser.Starves` if it always fails;
* `Grammar.starves_assignment`: an expression is wanted;
* `Grammar.starves_declaration`: so a declaration is.
-/

namespace Tern

/-! ## Early errors -/

/-- An error that says no more than that the text stops. -/
def SyntaxError.isEarly : SyntaxError → Bool
  | .parse e => e.found == "end of input"
  | .lex e =>
    match e.cause with
    | .openString | .openComment => true
    | .stray _ => false

/-- A text is incomplete if it is in error only because it stops. -/
theorem isIncomplete_eq (source : String) :
    isIncomplete source =
      match Program.parse? source with
      | .ok _ => false
      | .error e => e.isEarly := by
  unfold isIncomplete
  cases Program.parse? source with
  | ok p => rfl
  | error e => cases e <;> rfl

/-- Nothing is ahead but the end of input, or trouble that comes from the text stopping. -/
def Input.Over (s : Input) : Prop :=
  (∃ t, Parser.peek s = .ok (t, s) ∧ t.kind = .endOfInput) ∨
    ∃ e, Parser.peek s = .error e ∧ e.isEarly = true

namespace Parser

variable {α β : Type} {Q : α → Prop} {P : β → Prop} {p : Parser α} {f : α → Parser β}

/-- Where nothing is ahead the parser ends, with a result as described and nothing ahead after it,
or fails early. -/
def Rests (p : Parser α) (Q : α → Prop) : Prop :=
  ∀ s : Input, s.Over → (∃ a s', p s = .ok (a, s') ∧ Q a ∧ s'.Over) ∨
    ∃ e, p s = .error e ∧ e.isEarly = true

/-- Where nothing is ahead the parser fails early. -/
def Starves (p : Parser α) : Prop := Rests p fun _ => False

/-! ## Results -/

theorem rests_pure {a : α} (h : Q a) : Rests (pure a) Q := fun s hOver =>
  .inl ⟨a, s, rfl, h, hOver⟩

theorem bind_error {s : Input} {e : SyntaxError} (h : p s = .error e) :
    (p >>= f) s = .error e := by
  change (p s >>= fun x => f x.1 x.2) = _
  rw [h]
  rfl

theorem rests_bind (hp : Rests p Q) (hf : ∀ a, Q a → Rests (f a) P) : Rests (p >>= f) P := by
  intro s hOver
  rcases hp s hOver with ⟨a, s', hRun, ha, hOver'⟩ | ⟨e, hRun, he⟩
  · rw [bind_ok hRun]
    exact hf a ha s' hOver'
  · exact .inr ⟨e, bind_error hRun, he⟩

theorem Rests.mono {Q' : α → Prop} (h : Rests p Q) (hImp : ∀ a, Q a → Q' a) : Rests p Q' :=
  fun s hOver => (h s hOver).imp_left fun ⟨a, s', hRun, ha, hOver'⟩ =>
    ⟨a, s', hRun, hImp a ha, hOver'⟩

theorem Starves.rests (h : Starves p) : Rests p Q := h.mono fun _ => False.elim

/-- What comes after a parser that fails does not matter. -/
theorem Starves.bind (h : Starves p) : Rests (p >>= f) P := rests_bind h fun _ => False.elim

theorem rests_map {k : α → β} (h : Rests p fun a => P (k a)) : Rests (k <$> p) P := by
  rw [map_eq_pure_bind]
  exact rests_bind h fun a ha => rests_pure ha

/-! ## Tokens -/

variable {kind : TokenKind} {wanted : String}

theorem rests_failAt {t : Token} (cause : ParseCause) (h : t.kind = .endOfInput) :
    Rests (failAt t cause) Q := by
  refine fun s _ => .inr ⟨_, rfl, ?_⟩
  simp [SyntaxError.isEarly, Token.describe, h]

theorem rests_peek_bind {f : Token → Parser β} (h : ∀ t, t.kind = .endOfInput → Rests (f t) P) :
    Rests (peek >>= f) P := by
  refine rests_bind (Q := fun t => t.kind = .endOfInput) (fun s hOver => ?_) h
  rcases hOver with ⟨t, hPeek, hKind⟩ | hTrouble
  · exact .inl ⟨t, s, hPeek, hKind, .inl ⟨t, hPeek, hKind⟩⟩
  · exact .inr hTrouble

theorem rests_advance_bind {f : Token → Parser β} (h : ∀ t, Rests (f t) P) :
    Rests (advance >>= f) P := by
  unfold advance
  rw [bind_assoc]
  refine rests_peek_bind fun t ht => ?_
  rw [if_pos ht, pure_bind]
  exact h t

theorem rests_check_bind {f : Bool → Parser β} (hEnd : kind ≠ .endOfInput)
    (h : Rests (f false) P) : Rests (check kind >>= f) P := by
  unfold check
  rw [bind_assoc]
  refine rests_peek_bind fun t ht => ?_
  rw [pure_bind, decide_eq_false fun hKind => hEnd (hKind.symm.trans ht)]
  exact h

theorem rests_accept_bind {f : Bool → Parser β} (hEnd : kind ≠ .endOfInput)
    (h : Rests (f false) P) : Rests (accept kind >>= f) P := by
  unfold accept
  rw [bind_assoc]
  refine rests_check_bind hEnd ?_
  rw [if_neg Bool.false_ne_true, pure_bind]
  exact h

theorem rests_acceptAs {wanted : TokenKind → Option α} (hEnd : wanted .endOfInput = none) :
    Rests (acceptAs wanted) (· = none) := by
  refine rests_peek_bind fun t ht => ?_
  rw [ht, hEnd]
  exact rests_pure rfl

theorem rests_atClose_bind {f : Bool → Parser β} (h : Rests (f true) P) :
    Rests (atClose >>= f) P := by
  unfold atClose
  rw [bind_assoc]
  refine rests_peek_bind fun t ht => ?_
  rw [pure_bind, ht]
  exact h

theorem rests_spanFrom_bind {t : Token} {f : Option Span → Parser β} (h : ∀ v, Rests (f v) P) :
    Rests (spanFrom t >>= f) P := fun s hOver => h _ s hOver

theorem starves_expect (hEnd : kind ≠ .endOfInput) : Starves (expect kind wanted) := by
  refine rests_peek_bind fun t ht => ?_
  rw [if_neg fun hKind => hEnd (hKind.symm.trans ht)]
  exact rests_failAt _ ht

theorem starves_ident : Starves (ident wanted) := Starves.bind (starves_expect (by decide))

/-! ## Repetition -/

theorem rests_chainUpTo {more : Parser (Option β)} {step : α → β → Parser α}
    (hMore : Rests more (· = none)) (fuel : Nat) (a : α) :
    Rests (chainUpTo more step fuel a) fun _ => True := by
  cases fuel with
  | zero => exact rests_pure trivial
  | succ fuel =>
    refine rests_bind hMore fun b hb => ?_
    rw [hb]
    exact rests_pure trivial

theorem rests_chain {more : Parser (Option β)} {step : α → β → Parser α}
    (hMore : Rests more (· = none)) (a : α) : Rests (chain more step a) fun _ => True :=
  fun s hOver => rests_chainUpTo hMore (s.size + 1) a s hOver

end Parser

/-! ## The grammar -/

namespace Grammar

open Tern.Parser

variable {l : Level} {ctx : Context}

theorem starves_call : Starves (call l ctx) := by
  refine rests_peek_bind fun start _ => Starves.bind (rests_peek_bind fun t ht => ?_)
  rw [ht]
  exact rests_failAt _ ht

theorem starves_leftAssoc {β : Type} {op : TokenKind → Option β}
    {join : β → Expr → Expr → Option Span → Expr} {operand : Parser Expr}
    (h : Starves operand) : Starves (leftAssoc op join operand) :=
  rests_peek_bind fun _ _ => h.bind

theorem starves_unary : Starves (unary l ctx) := by
  refine rests_peek_bind fun t ht => ?_
  rw [ht]
  exact starves_call

theorem starves_logicOr : Starves (logicOr l ctx) :=
  -- disjunctions, conjunctions, equalities, comparisons, sums and products
  starves_leftAssoc <| starves_leftAssoc <| starves_leftAssoc <| starves_leftAssoc <|
    starves_leftAssoc <| starves_leftAssoc starves_unary

theorem starves_assignment : Starves (assignment l ctx) :=
  rests_peek_bind fun _ _ => starves_logicOr.bind

theorem rests_terminated {α : Type} (a : α) : Rests (terminated a) fun _ => True :=
  rests_accept_bind (by decide) (rests_atClose_bind (rests_pure trivial))

theorem starves_parenthesized {keyword : String} : Starves (parenthesized l ctx keyword) :=
  Starves.bind (starves_expect (by decide))

theorem starves_method : Starves (method l ctx) := by
  refine rests_peek_bind fun t ht => ?_
  rw [if_neg (by rw [ht]; decide)]
  exact rests_failAt _ ht

theorem starves_exprStmt (h : Starves (l.expression ctx)) : Starves (exprStmt l ctx) :=
  rests_peek_bind fun _ _ => h.bind

theorem starves_declaration (h : Starves (l.expression ctx)) : Starves (declaration l ctx) := by
  refine rests_peek_bind fun t ht => ?_
  rw [ht]
  exact (starves_exprStmt h).bind

theorem starves_tooNested {α : Type} : Starves (tooNested : Parser α) :=
  rests_peek_bind fun _ ht => rests_failAt _ ht

end Grammar

end Tern
