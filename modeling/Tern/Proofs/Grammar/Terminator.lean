import Tern.Proofs.Grammar.Drawing
import Tern.Proofs.Grammar.Semicolon

/-!
# Terminators

The semicolon before a closing brace or the end of input may be there or not. Where it stands after
a statement, the statement ends in either run, and where it stands elsewhere, as among the clauses
of a loop, neither run comes through.

* `Grammar.balks_expression`, `Grammar.balks_declaration`: no expression and no declaration begins
  where a statement ends;
* `Gap.SlidesLevel`: the parsers of a level do the same with and without the semicolon, and
  `Gap.slides_level` those of all levels;
* `Gap.Crosses`: what is left of a loop with three clauses;
* `Program.terminator_optional`: the same program is read with and without the semicolon.
-/

namespace Tern

open Terminal (leavesOpen)

/-! ## Where no expression begins -/

namespace Grammar

open Tern.Parser

variable {l : Level} {ctx : Context}

theorem balks_primary : Balks (primary l ctx) := by
  refine balks_peek_bind fun t ht => ?_
  split
  case h_11 => exact balks_failAt
  all_goals next hKind => rw [hKind] at ht; cases ht

theorem balks_call : Balks (call l ctx) := balks_peek_bind fun _ _ => balks_primary.bind

theorem balks_leftAssoc {β : Type} {op : TokenKind → Option β}
    {join : β → Expr → Expr → Option Span → Expr} {operand : Parser Expr} (h : Balks operand) :
    Balks (leftAssoc op join operand) :=
  balks_peek_bind fun _ _ => h.bind

theorem balks_unary : Balks (unary l ctx) := by
  refine balks_peek_bind fun t ht => ?_
  have hNone : unaryOp t.kind = none := by
    generalize t.kind = kind at ht
    cases kind <;> first | rfl | cases ht
  rw [hNone]
  exact balks_call

theorem balks_assignment : Balks (assignment l ctx) :=
  -- disjunctions, conjunctions, equalities, comparisons, sums and products
  balks_peek_bind fun _ _ => (balks_leftAssoc <| balks_leftAssoc <| balks_leftAssoc <|
    balks_leftAssoc <| balks_leftAssoc <| balks_leftAssoc balks_unary).bind

theorem balks_tooNested {α : Type} : Balks (tooNested : Parser α) :=
  balks_peek_bind fun _ _ => balks_failAt

theorem balks_expression {room : Nat} : Balks ((level room).expression ctx) := by
  cases room with
  | zero => exact balks_tooNested
  | succ room => exact balks_assignment

theorem balks_exprStmt {room : Nat} : Balks (exprStmt (level room) ctx) :=
  balks_peek_bind fun _ _ => balks_expression.bind

theorem balks_statement {room : Nat} : Balks (declaration (level room) ctx) := by
  refine balks_peek_bind fun t ht => ?_
  split
  case h_14 => exact balks_exprStmt.bind
  all_goals next hKind => rw [hKind] at ht; cases ht

theorem balks_declaration {room : Nat} : Balks ((level room).declaration ctx) := by
  cases room with
  | zero => exact balks_tooNested
  | succ room => exact balks_statement

theorem balks_method : Balks (method l ctx) := by
  refine balks_peek_bind fun t ht => ?_
  rw [if_neg (ne_of_terminates ht rfl)]
  exact balks_failAt

/-! ## Terminators -/

theorem terminated_semicolon {α : Type} {a : α} {s : Input} {t : Token}
    (hRest : s.rest = t :: s.rest.tail) (hKind : t.kind = .semicolon) :
    terminated a s = .ok (a, { s with rest := s.rest.tail, last := some t }) := by
  unfold terminated
  rw [bind_ok (accept_cons hRest hKind nofun)]
  rfl

theorem terminated_other {α : Type} {a : α} {s : Input} {t : Token} {rest : List Token}
    (hRest : s.rest = t :: rest) (hKind : t.kind ≠ .semicolon) :
    terminated a s =
      if t.kind.endsRow then .ok (a, s)
      else .error (.parse ⟨.unexpected "';'", t.describe, t.pos⟩) := by
  unfold terminated atClose
  rw [bind_ok (accept_other hRest hKind)]
  simp only [Bool.false_eq_true, if_false, bind_assoc, pure_bind]
  rw [bind_ok (peek_cons hRest)]
  have hFails : (peek >>= fun t => (failAt t (.unexpected "';'") : Parser α)) s =
      .error (.parse ⟨.unexpected "';'", t.describe, t.pos⟩) := by
    rw [bind_ok (peek_cons hRest)]
    rfl
  generalize t.kind = kind
  cases kind <;> first | rfl | exact hFails

/-- Nothing is returned where the statement ends. -/
theorem returnValue_terminates {s : Input} {t : Token} {rest : List Token}
    (hRest : s.rest = t :: rest) (hKind : t.kind.terminates = true) :
    returnValue l ctx s = .ok (none, s) := by
  unfold returnValue atClose
  rw [bind_ok (check_cons hRest)]
  by_cases hSemi : t.kind = .semicolon
  · rw [decide_eq_true hSemi]
    rfl
  · rw [decide_eq_false hSemi]
    simp only [Bool.false_eq_true, if_false, bind_assoc, pure_bind]
    rw [bind_ok (peek_cons hRest)]
    generalize t.kind = kind at hKind hSemi
    cases kind <;> first | rfl | exact absurd rfl hSemi | cases hKind

end Grammar

namespace Gap

open Tern.Parser Grammar Form

variable {G : Gap} {room : Nat} {ctx : Context} {n : Nat} {t : Token}

/-- The parsers of a level do the same with and without the semicolon, and take something. -/
structure SlidesLevel (G : Gap) (l : Level) : Prop where
  expression : ∀ ctx n, G.Slides (G.Abreast (n + 1)) (l.expression ctx) (G.Abreast n)
  operand : ∀ ctx n, G.Slides (G.Abreast (n + 1)) (l.operand ctx) (G.Abreast n)
  declaration : ∀ ctx n, G.Slides (G.Abreast (n + 1)) (l.declaration ctx) (G.Ended n)

/-! ## Parts without a level -/

/-- What is made with the span of what has been taken. -/
theorem slides_spanned {α : Type} {pre : Input → Input → Prop} {k : Option Span → α}
    (hPre : ∀ s u, pre s u → G.Abreast n s u) :
    G.Slides pre (do pure (k (← spanFrom t))) pre :=
  slides_spanFrom_bind (fun s u h => (hPre s u h).last) fun _ => slides_pure fun _ _ h => h

theorem slides_thisExpr : G.Slides (G.Abreast n) (thisExpr ctx t) (G.Abreast n) :=
  slides_ite (fun _ => slides_failAt) fun _ => slides_spanned fun _ _ h => h

theorem slides_superExpr : G.Slides (G.Abreast n) (superExpr ctx t) (G.Abreast n) := by
  unfold superExpr
  split
  · exact slides_failAt
  · exact slides_failAt
  · exact slides_middle_bind rfl fun _ => slides_ident_bind fun _ => slides_spanned fun _ _ h => h

theorem plain_of_tier {β : Type} {wanted : TokenKind → Option β} {tier : Nat}
    (hTier : OfTier wanted tier) (kind : TokenKind) (b : β) (h : wanted kind = some b) :
    kind.terminates = false := by
  have hEq := hTier.tier_eq h
  have hPos := hTier.pos
  cases kind <;> first | rfl | exact absurd (hEq ▸ hPos) (by decide)

/-- A parser that fails where a statement ends, and does the same in both runs elsewhere. -/
structure Steady (G : Gap) (p : Parser Expr) : Prop where
  balks : Balks p
  slides : ∀ n t, G.Slides (G.Sees (n + 1) t) p (G.Abreast n)

theorem Steady.abreast {p : Parser Expr} (h : G.Steady p) :
    G.Slides (G.Abreast (n + 1)) p (G.Abreast n) :=
  slides_of_balks h.balks (h.slides n)

theorem steady_leftAssoc {β : Type} {op : TokenKind → Option β}
    {join : β → Expr → Expr → Option Span → Expr} {operand : Parser Expr} {tier : Nat}
    (hTier : OfTier op tier) (hOperand : G.Steady operand) :
    G.Steady (leftAssoc op join operand) := by
  refine ⟨balks_leftAssoc hOperand.balks, fun n t => ?_⟩
  refine slides_peek_bind (slides_bind (hOperand.slides n t) fun e => ?_)
  refine slides_chain (measured_abreast G) (decides_acceptAs (plain_of_tier hTier)) ?_ e
  exact fun n e b => slides_bind (slides_of_succ fun _ => hOperand.abreast) fun _ =>
    slides_spanned fun _ _ h => h

/-- A semicolon before what closes a row ends a statement, and where there is none what closes the
row does. -/
theorem slides_terminated {α : Type} (a : α) :
    G.Slides (G.Abreast n) (terminated a) (G.Ended n) := by
  intro s u hAbreast
  rcases hAbreast.cases with ⟨hLeft, hRight, -⟩ | ⟨t, hSees⟩
  · rw [terminated_semicolon (t := G.semi) (by rw [hLeft]; rfl) G.isSemi,
      terminated_other hRight G.close_ne_semicolon, if_pos G.closes]
    have hTail : s.rest.tail = G.right := by
      rw [hLeft]
      rfl
    have hShorter : s.rest.tail.length ≤ s.rest.length := by
      rw [List.length_tail]
      exact Nat.sub_le _ _
    exact .done (.inl ⟨hTail, hRight, Nat.le_trans hShorter hAbreast.le,
      Nat.le_trans hShorter hAbreast.left_size, hAbreast.right_size⟩)
  · by_cases hKind : t.kind = .semicolon
    · rw [terminated_semicolon hSees.ahead.left hKind, terminated_semicolon hSees.ahead.right hKind]
      exact .done (.inr ((hSees.succ.ahead.take (hKind ▸ nofun)).clear (hKind ▸ rfl)))
    · rw [terminated_other hSees.ahead.left hKind, terminated_other hSees.ahead.right hKind]
      split
      · exact .done (.inr hSees.clear)
      · exact .failed

theorem slides_param (before : List Ident) :
    G.Slides (G.Abreast n) (param before) (G.Abreast n) :=
  slides_ident_bind fun _ => slides_ite (fun _ => slides_previous_failAt) fun _ =>
    slides_pure fun _ _ h => h

theorem slides_superclass {id : Ident} :
    G.Slides (G.Abreast n) (superclass id) (G.Abreast n) := by
  refine slides_accept_bind rfl (fun _ _ h => h) (slides_pure fun _ _ h => h) ?_
  exact slides_ident_bind fun _ => slides_ite (fun _ => slides_previous_failAt) fun _ =>
    slides_pure fun _ _ h => h

/-- What ends with a brace is over in both runs. -/
theorem slides_braced {α : Type} {p : Parser α} (h : G.Slides (G.Sees (n + 1) t) p (G.Clear n)) :
    G.Slides (G.Sees (n + 1) t) p (G.Ended n) :=
  slides_mono h (fun _ _ h => h) fun _ _ => .inr

/-- A `break` or `continue`. -/
theorem slides_loopExit {k : Option Span → Stmt} {cause : ParseCause}
    (hKind : t.kind ≠ .endOfInput) :
    G.Slides (G.Sees (n + 1) t) (do
      let keyword ← advance
      if ctx.inLoop then terminated (k (← spanFrom keyword))
      else failAt keyword cause) (G.Ended n) := by
  refine slides_advance_bind hKind (slides_ite (fun _ => ?_) fun _ => slides_failAt)
  exact slides_spanFrom_bind (fun _ _ h => h.last) fun _ => slides_terminated _

/-! ## Clauses

In the clauses of a loop a semicolon separates, and what closes a row of statements has no place. So
neither run comes through where the gap is among the clauses. -/

/-- The parser does the same in both runs, and fails at the gap. -/
structure Crosses {α : Type} (G : Gap) (n : Nat) (p : Parser α) (post : Input → Input → Prop) :
    Prop where
  stuck : G.Stuck p
  slides : G.Slides (G.Abreast n) p post

section

variable {α β : Type} {p : Parser (Option α)} {f : Option α → Parser β} {q : Parser β}
  {post : Input → Input → Prop} {wanted : String}

theorem crosses_of_balks (h : Balks q) (hSlides : ∀ t, G.Slides (G.Sees n t) q post) :
    G.Crosses n q post :=
  ⟨stuck_of_balks h, slides_of_balks h hSlides⟩

/-- Behind a semicolon that separates clauses there is something. -/
theorem crosses_semicolon_bind (h : G.Crosses n q post) :
    G.Crosses n (expect .semicolon wanted >>= fun _ => q) post := by
  have hStuck : G.Stuck (expect .semicolon wanted >>= fun _ => q) := by
    unfold expect
    rw [bind_assoc]
    rintro s (hLeft | hRight)
    · have hRest : s.rest = G.semi :: s.rest.tail := by
        rw [hLeft]
        rfl
      rw [bind_ok (peek_cons hRest), if_pos G.isSemi,
        bind_ok (advance_cons hRest (G.isSemi ▸ nofun))]
      refine h.stuck _ (.inr ?_)
      rw [hLeft]
      rfl
    · rw [bind_ok (peek_cons hRight), if_neg G.close_ne_semicolon]
      exact ⟨_, bind_error rfl⟩
  refine ⟨hStuck, slides_of_stuck hStuck fun t => slides_from (fun _ _ h => h.succ) ?_⟩
  exact slides_seen_expect_bind nofun fun _ => slides_from (fun _ _ h => h.abreast) h.slides

/-- A clause may be left out before a semicolon. -/
theorem crosses_clause_bind (hNone : ∀ s : Input, s.rest = G.left → p s = .ok (none, s))
    (hFails : ∀ s : Input, s.rest = G.right → ∃ e, p s = .error e)
    (hp : ∀ t, G.Slides (G.Sees n t) p (G.Abreast n)) (h : ∀ a, G.Crosses n (f a) post) :
    G.Crosses n (p >>= f) post := by
  have hStuck : G.Stuck (p >>= f) := by
    rintro s (hLeft | hRight)
    · rw [bind_ok (hNone s hLeft)]
      exact (h none).stuck s (.inl hLeft)
    · obtain ⟨e, he⟩ := hFails s hRight
      exact ⟨e, bind_error he⟩
  exact ⟨hStuck, slides_of_stuck hStuck fun t => slides_bind (hp t) fun a => (h a).slides⟩

end

/-! ## Expressions -/

section

variable (hl : G.SlidesLevel (level room))

include hl

theorem SlidesLevel.abreast :
    G.Slides (G.Abreast n) ((level room).expression ctx) (G.Abreast n) :=
  slides_of_succ (hl.expression ctx)

theorem slides_grouped : G.Slides (G.Abreast n) (grouped (level room) ctx) (G.Abreast n) :=
  slides_bind hl.abreast fun _ => slides_middle_bind rfl fun _ => slides_pure fun _ _ h => h

theorem slides_expressions {close : TokenKind} (hPlain : close.terminates = false) :
    G.Slides (G.Abreast n) (commaSeparated close fun _ => (level room).expression ctx)
      (G.Abreast n) :=
  slides_commaSeparated hPlain fun _ _ => hl.abreast

theorem slides_arrayExpr :
    G.Slides (G.Abreast n) (arrayExpr (level room) ctx t) (G.Abreast n) :=
  slides_bind (slides_expressions hl rfl) fun _ => slides_middle_bind rfl fun _ =>
    slides_spanned fun _ _ h => h

theorem slides_primary :
    G.Slides (G.Sees (n + 1) t) (primary (level room) ctx) (G.Abreast n) := by
  have hLeaf : ∀ {e : Option Span → Expr}, t.kind ≠ .endOfInput →
      G.Slides (G.Sees (n + 1) t) (do let _ ← advance; pure (e (← spanFrom t))) (G.Abreast n) :=
    fun hKind => slides_advance_bind hKind (slides_spanned fun _ _ h => h)
  refine slides_peek_bind ?_
  split
  case h_6 h => exact slides_advance_bind (h ▸ nofun) slides_thisExpr
  case h_7 h => exact slides_advance_bind (h ▸ nofun) slides_superExpr
  case h_9 h => exact slides_advance_bind (h ▸ nofun) (slides_grouped hl)
  case h_10 h => exact slides_advance_bind (h ▸ nofun) (slides_arrayExpr hl)
  case h_11 => exact slides_failAt
  all_goals next h => exact hLeaf (h ▸ nofun)

theorem slides_suffixed {start : Token} {e : Expr} (suffix : Suffix) :
    G.Slides (G.Abreast n) (suffixed (level room) ctx start e suffix) (G.Abreast n) := by
  cases suffix with
  | call =>
    exact slides_bind (slides_expressions hl rfl) fun _ => slides_middle_bind rfl fun _ =>
      slides_spanned fun _ _ h => h
  | member => exact slides_ident_bind fun _ => slides_spanned fun _ _ h => h
  | index =>
    exact slides_bind hl.abreast fun _ => slides_middle_bind rfl fun _ =>
      slides_spanned fun _ _ h => h

theorem slides_call : G.Slides (G.Sees (n + 1) t) (call (level room) ctx) (G.Abreast n) := by
  refine slides_peek_bind (slides_bind (slides_primary hl) fun e => ?_)
  exact slides_chain (measured_abreast G) (decides_acceptAs (plain_of_tier ofTier_suffix))
    (fun _ _ suffix => slides_suffixed hl suffix) e

theorem steady_unary : G.Steady (unary (level room) ctx) := by
  refine ⟨balks_unary, fun n t => slides_peek_bind ?_⟩
  split
  · next op hOp =>
    have hKind : t.kind ≠ .endOfInput := fun hKind => by
      rw [hKind] at hOp
      cases hOp
    refine slides_advance_bind hKind (slides_bind (slides_of_succ (hl.operand ctx)) fun _ => ?_)
    exact slides_spanned fun _ _ h => h
  · exact slides_call hl

theorem steady_logicOr : G.Steady (logicOr (level room) ctx) := by
  refine steady_leftAssoc ofTier_or ?_
  refine steady_leftAssoc ofTier_and ?_
  refine steady_leftAssoc ofTier_equality ?_
  refine steady_leftAssoc ofTier_comparison ?_
  refine steady_leftAssoc ofTier_term ?_
  exact steady_leftAssoc ofTier_factor (steady_unary hl)

theorem steady_assignment : G.Steady (assignment (level room) ctx) := by
  refine ⟨balks_assignment, fun n t => ?_⟩
  refine slides_peek_bind (slides_bind ((steady_logicOr hl).slides n t) fun target => ?_)
  refine slides_check_bind rfl (fun _ _ h => h) (slides_pure fun _ _ h => h) fun u hKind => ?_
  rw [if_pos rfl]
  refine slides_from (fun _ _ h => h.succ) (slides_advance_bind (hKind ▸ nofun) ?_)
  refine slides_bind hl.abreast fun value => slides_spanFrom_bind (fun _ _ h => h.last) fun v => ?_
  split
  · exact slides_pure fun _ _ h => h
  · exact slides_failAt

/-! ## Declarations -/

theorem slides_block {what : String} (n : Nat) :
    G.Slides (G.Abreast (n + 1)) (block (level room) ctx what) (G.Clear n) := by
  refine slides_expect_bind rfl fun opening hKind => ?_
  refine slides_from (fun _ _ h => h.clear (hKind ▸ rfl)) ?_
  exact slides_untilClose_bind (hl.declaration ctx) balks_declaration fun body _ =>
    slides_spanned fun _ _ h => h.abreast

theorem slides_body {what : String} :
    G.Slides (G.Abreast n) (block (level room) ctx what) (G.Clear n) :=
  slides_from (fun _ _ h => h.succ) (slides_block hl n)

theorem slides_funcDef {what : String} (hKind : t.kind ≠ .endOfInput) :
    G.Slides (G.Sees (n + 1) t) (funcDef (level room) ctx what) (G.Clear n) := by
  refine slides_advance_bind hKind (slides_ident_bind fun id => slides_middle_bind rfl fun _ => ?_)
  refine slides_bind (slides_commaSeparated rfl fun before _ => slides_param before) fun _ => ?_
  refine slides_middle_bind rfl fun _ => slides_bind (slides_body hl) fun body => ?_
  exact slides_spanned fun _ _ h => h.abreast

theorem slides_method (n : Nat) :
    G.Slides (G.Abreast (n + 1)) (method (level room) ctx) (G.Ended n) := by
  refine slides_of_balks balks_method fun t => slides_peek_bind ?_
  refine slides_ite (fun hKind => ?_) fun _ => slides_failAt
  exact slides_braced (slides_funcDef hl (hKind ▸ nofun))

theorem slides_classDef (hKind : t.kind = .kwClass) :
    G.Slides (G.Sees (n + 1) t) (classDef (level room) ctx) (G.Clear n) := by
  refine slides_advance_bind (hKind ▸ nofun) (slides_ident_bind fun id => ?_)
  refine slides_bind slides_superclass fun parent => slides_from (fun _ _ h => h.succ) ?_
  refine slides_expect_bind rfl fun opening hKind => ?_
  refine slides_from (fun _ _ h => h.clear (hKind ▸ rfl)) ?_
  exact slides_untilClose_bind (slides_method hl) balks_method fun body _ =>
    slides_spanned fun _ _ h => h.abreast

theorem slides_varDecl (hKind : t.kind = .kwVar) :
    G.Slides (G.Sees (n + 1) t) (varDecl (level room) ctx) (G.Abreast n) := by
  refine slides_advance_bind (hKind ▸ nofun) (slides_ident_bind fun id => ?_)
  refine slides_accept_bind rfl (fun _ _ h => h) (slides_spanned fun _ _ h => h) ?_
  exact slides_bind (slides_map hl.abreast) fun _ => slides_spanned fun _ _ h => h

theorem slides_constDecl (hKind : t.kind = .kwConst) :
    G.Slides (G.Sees (n + 1) t) (constDecl (level room) ctx) (G.Abreast n) := by
  refine slides_advance_bind (hKind ▸ nofun) (slides_ident_bind fun id => ?_)
  refine slides_middle_bind rfl fun _ => slides_bind hl.abreast fun _ => ?_
  exact slides_spanned fun _ _ h => h

theorem slides_exprStmt :
    G.Slides (G.Sees (n + 1) t) (exprStmt (level room) ctx) (G.Abreast n) := by
  refine slides_peek_bind (slides_bind (slides_from (fun _ _ h => h.abreast)
    (hl.expression ctx n)) fun _ => ?_)
  exact slides_spanned fun _ _ h => h

/-! ## Control flow -/

theorem slides_parenthesized {keyword : String} :
    G.Slides (G.Abreast n) (parenthesized (level room) ctx keyword) (G.Abreast n) :=
  slides_middle_bind rfl fun _ => slides_bind hl.abreast fun _ => slides_middle_bind rfl fun _ =>
    slides_pure fun _ _ h => h

theorem slides_elifClause (hKind : t.kind = .kwElif) :
    G.Slides (G.Sees (n + 1) t) (elifClause (level room) ctx) (G.Clear n) := by
  refine slides_advance_bind (hKind ▸ nofun) (slides_bind (slides_parenthesized hl) fun _ => ?_)
  exact slides_bind (slides_body hl) fun _ => slides_spanned fun _ _ h => h.abreast

theorem slides_elifClauses :
    G.Slides (G.Clear n) (elifClauses (level room) ctx) (G.Clear n) := by
  refine slides_bind (slides_chain (measured_clear G) (decides_check rfl) ?_ []) fun _ =>
    slides_pure fun _ _ h => h
  rintro n clauses _ s u ⟨t, hKind, hSees⟩
  exact slides_bind (slides_elifClause hl hKind) (fun _ => slides_pure fun _ _ h => h) s u hSees

theorem slides_ifStmt (hKind : t.kind = .kwIf) :
    G.Slides (G.Sees (n + 1) t) (ifStmt (level room) ctx) (G.Clear n) := by
  refine slides_advance_bind (hKind ▸ nofun) (slides_bind (slides_parenthesized hl) fun _ => ?_)
  refine slides_bind (slides_body hl) fun _ => slides_bind (slides_elifClauses hl) fun _ => ?_
  refine slides_accept_bind rfl (fun _ _ h => h.abreast) (slides_spanned fun _ _ h => h.abreast) ?_
  exact slides_bind (slides_map (slides_body hl)) fun _ => slides_spanned fun _ _ h => h.abreast

theorem slides_whileStmt (hKind : t.kind = .kwWhile) :
    G.Slides (G.Sees (n + 1) t) (whileStmt (level room) ctx) (G.Clear n) := by
  refine slides_advance_bind (hKind ▸ nofun) (slides_bind (slides_parenthesized hl) fun _ => ?_)
  exact slides_bind (slides_body hl) fun _ => slides_spanned fun _ _ h => h.abreast

theorem slides_optionalBefore {close : TokenKind} :
    G.Slides (G.Sees n t) (optionalBefore (level room) ctx close) (G.Abreast n) :=
  slides_seen_check_bind fun _ => slides_ite (fun _ => slides_pure fun _ _ h => h.abreast) fun _ =>
    slides_from (fun _ _ h => h.abreast) (slides_map hl.abreast)

theorem slides_forStart :
    G.Slides (G.Sees n t) (forStart (level room) ctx) (G.Abreast n) := by
  refine slides_peek_bind ?_
  split
  · next hKind => exact slides_from (fun _ _ h => h.succ) (slides_map (slides_varDecl hl hKind))
  · next hKind => exact slides_from (fun _ _ h => h.succ) (slides_map (slides_constDecl hl hKind))
  · exact slides_pure fun _ _ h => h.abreast
  · exact slides_from (fun _ _ h => h.succ) (slides_map (slides_exprStmt hl))

theorem crosses_forStart_bind {β : Type} {f : Option Simple → Parser β}
    {post : Input → Input → Prop} (h : ∀ i, G.Crosses n (f i) post) :
    G.Crosses n (forStart (level room) ctx >>= f) post := by
  refine crosses_clause_bind (fun s hLeft => ?_) (fun s hRight => ?_)
    (fun _ => slides_forStart hl) h
  · unfold forStart
    rw [bind_ok (peek_cons hLeft), G.isSemi]
    rfl
  · have hBalks : Balks (some <$> exprStmt (level room) ctx) := balks_exprStmt.map
    obtain ⟨e, he⟩ := hBalks s _ _ hRight G.close_terminates
    unfold forStart
    rw [bind_ok (peek_cons hRight)]
    rcases G.close_kind with hKind | hKind <;> rw [hKind] <;> exact ⟨e, he⟩

theorem crosses_condition_bind {β : Type} {f : Option Expr → Parser β}
    {post : Input → Input → Prop} (h : ∀ c, G.Crosses n (f c) post) :
    G.Crosses n (optionalBefore (level room) ctx .semicolon >>= f) post := by
  refine crosses_clause_bind (fun s hLeft => ?_) (fun s hRight => ?_)
    (fun _ => slides_optionalBefore hl) h
  · unfold optionalBefore
    rw [bind_ok (check_cons hLeft), decide_eq_true G.isSemi]
    rfl
  · unfold optionalBefore
    rw [bind_ok (check_cons hRight), decide_eq_false G.close_ne_semicolon]
    exact balks_expression.map s _ _ hRight G.close_terminates

theorem slides_forStmt (hKind : t.kind = .kwFor) :
    G.Slides (G.Sees (n + 1) t) (forStmt (level room) ctx) (G.Clear n) := by
  refine slides_advance_bind (hKind ▸ nofun) (slides_middle_bind rfl fun _ => Crosses.slides ?_)
  refine crosses_forStart_bind hl fun i => crosses_semicolon_bind ?_
  refine crosses_condition_bind hl fun c => crosses_semicolon_bind ?_
  have hUpdate : Balks (optionalBefore (level room) ctx .rightParen) :=
    balks_check_bind rfl balks_expression.map
  refine crosses_of_balks hUpdate.bind fun t => slides_bind (slides_optionalBefore hl) fun x => ?_
  refine slides_middle_bind rfl fun _ => slides_bind (slides_body hl) fun body => ?_
  exact slides_spanned fun _ _ h => h.abreast

theorem slides_returnValue :
    G.Slides (G.Abreast n) (returnValue (level room) ctx) (G.Abreast n) := by
  intro s u hAbreast
  rcases hAbreast.cases with ⟨hLeft, hRight, -⟩ | ⟨t, hSees⟩
  · rw [returnValue_terminates hLeft G.semi_terminates,
      returnValue_terminates hRight G.close_terminates]
    exact .done hAbreast
  · have hValue : G.Slides (G.Sees n t) (returnValue (level room) ctx) (G.Abreast n) := by
      refine slides_seen_check_bind fun _ => slides_ite
        (fun _ => slides_pure fun _ _ h => h.abreast) fun _ => ?_
      unfold atClose
      rw [bind_assoc]
      refine slides_peek_bind ?_
      rw [pure_bind]
      exact slides_ite (fun _ => slides_pure fun _ _ h => h.abreast) fun _ =>
        slides_from (fun _ _ h => h.abreast) (slides_map hl.abreast)
    exact hValue s u hSees

theorem slides_returnStmt (hKind : t.kind = .kwReturn) :
    G.Slides (G.Sees (n + 1) t) (returnStmt (level room) ctx) (G.Ended n) := by
  refine slides_advance_bind (hKind ▸ nofun) (slides_ite (fun _ => ?_) fun _ => slides_failAt)
  refine slides_bind (slides_returnValue hl) fun _ => ?_
  exact slides_spanFrom_bind (fun _ _ h => h.last) fun _ => slides_terminated _

theorem slides_throwStmt (hKind : t.kind = .kwThrow) :
    G.Slides (G.Sees (n + 1) t) (throwStmt (level room) ctx) (G.Ended n) := by
  refine slides_advance_bind (hKind ▸ nofun) (slides_bind hl.abreast fun _ => ?_)
  exact slides_spanFrom_bind (fun _ _ h => h.last) fun _ => slides_terminated _

theorem slides_tryStmt (hKind : t.kind = .kwTry) :
    G.Slides (G.Sees (n + 1) t) (tryStmt (level room) ctx) (G.Clear n) := by
  refine slides_advance_bind (hKind ▸ nofun) (slides_bind (slides_body hl) fun _ => ?_)
  refine slides_from (fun _ _ h => h.abreast) (slides_middle_bind rfl fun _ => ?_)
  refine slides_middle_bind rfl fun _ => slides_ident_bind fun _ => ?_
  refine slides_middle_bind rfl fun _ => ?_
  exact slides_bind (slides_body hl) fun _ => slides_spanned fun _ _ h => h.abreast

/-! ## Levels -/

theorem slides_declaration (n : Nat) :
    G.Slides (G.Abreast (n + 1)) (declaration (level room) ctx) (G.Ended n) := by
  have hSimple : ∀ {p : Parser Simple} {t : Token}, G.Slides (G.Sees (n + 1) t) p (G.Abreast n) →
      G.Slides (G.Sees (n + 1) t) (p >>= fun s => terminated (Stmt.simple s)) (G.Ended n) :=
    fun h => slides_bind h fun _ => slides_terminated _
  have hBalks : Balks (declaration (level room) ctx) := balks_statement
  refine slides_of_balks hBalks fun t => slides_peek_bind ?_
  split
  case h_1 h => exact slides_braced (slides_map (slides_classDef hl h))
  case h_2 h => exact slides_braced (slides_map (slides_funcDef hl (h ▸ nofun)))
  case h_3 h => exact hSimple (slides_varDecl hl h)
  case h_4 h => exact hSimple (slides_constDecl hl h)
  case h_5 h => exact slides_braced (slides_ifStmt hl h)
  case h_6 h => exact slides_braced (slides_whileStmt hl h)
  case h_7 h => exact slides_braced (slides_forStmt hl h)
  case h_8 h => exact slides_loopExit (h ▸ nofun)
  case h_9 h => exact slides_loopExit (h ▸ nofun)
  case h_10 h => exact slides_returnStmt hl h
  case h_11 h => exact slides_braced (slides_tryStmt hl h)
  case h_12 h => exact slides_throwStmt hl h
  case h_13 =>
    exact slides_braced (slides_map (slides_from (fun _ _ h => h.abreast) (slides_block hl n)))
  case h_14 => exact hSimple (slides_exprStmt hl)

end

theorem slides_level (G : Gap) (room : Nat) : G.SlidesLevel (level room) := by
  induction room with
  | zero =>
    have hNested : ∀ {α : Type} {post : Input → Input → Prop} {n : Nat},
        G.Slides (G.Abreast (n + 1)) (tooNested : Parser α) post :=
      slides_of_balks balks_tooNested fun _ => slides_peek_bind slides_failAt
    exact ⟨fun _ _ => hNested, fun _ _ => hNested, fun _ _ => hNested⟩
  | succ room ih =>
    exact ⟨fun _ _ => (steady_assignment ih).abreast, fun _ _ => (steady_unary ih).abreast,
      fun _ n => slides_declaration ih n⟩

/-! ## Programs -/

/-- Programs are the same in both runs. A semicolon for a first statement makes the first run
fail. -/
theorem slides_program (G : Gap) (n : Nat) :
    G.Slides (G.Clear n) program fun _ _ => True := by
  let stop : TokenKind → Bool := fun kind => kind == .endOfInput
  have hMore : ∀ (s : Input) (t : Token) (rest : List Token), s.rest = t :: rest →
      (do if ← check .endOfInput then pure none else pure (some ()) : Parser (Option Unit)) s =
        .ok (if stop t.kind then none else some (), s) := by
    intro s t rest hRest
    rw [bind_ok (check_cons hRest)]
    generalize t.kind = kind
    cases kind <;> rfl
  have hBalks : Balks ((level maxNesting).declaration .top) := balks_declaration
  intro s u hClear
  rcases hClear.cases with ⟨hFree, hLeft⟩ | ⟨t, hSees⟩
  · obtain ⟨e, he⟩ := hBalks s _ _ hLeft G.semi_terminates
    have hFails : program s = .error e := by
      unfold program
      rw [bind_ok (peek_cons hLeft)]
      refine bind_error ?_
      refine (chainUpTo_cons hMore hLeft s.size []).trans ?_
      rw [G.isSemi, if_neg (by decide), bind_error he]
    rw [hFails]
    exact .broken hFree
  · have hProgram : G.Slides (G.Sees n t) program fun _ _ => True := by
      refine slides_peek_bind (slides_bind (slides_from (fun _ _ h => .inr h.clear)
        (slides_loop stop rfl hMore
          ((slides_level G maxNesting).declaration .top) hBalks [])) fun body => ?_)
      rintro s u ⟨finish, hAhead, -⟩
      rw [bind_ok (peek_cons hAhead.left), bind_ok (peek_cons hAhead.right)]
      exact .done trivial
    exact hProgram s u hSees

/-- Two runs from the start, with and without the semicolon. -/
theorem outcome_of_streams (G : Gap) (before : List Token)
    (hOpen : G.held → ∃ t, before.getLast? = some t ∧ leavesOpen t.kind = true) :
    G.Outcome (fun _ _ => True) (program (Input.ofStream ⟨before ++ G.left, none⟩))
      (program (Input.ofStream ⟨before ++ G.right, none⟩)) := by
  have hRows : G.Rows none (before ++ G.left) (before ++ G.right) := by
    refine .behind before (.gap fun hHeld => ?_)
    rw [Option.or_none]
    exact hOpen hHeld
  refine slides_program G _ _ _ ⟨⟨hRows, rfl, Nat.le_refl _, Nat.le_refl _, Nat.le_refl _⟩, ?_⟩
  intro hHeld
  obtain ⟨t, hLast, -⟩ := hOpen hHeld
  cases before with
  | nil => cases hLast
  | cons t before => exact ⟨t, rfl, rfl⟩

end Gap

/-! ## With and without the semicolon -/

/-- The row ends with an end of input. -/
def Token.EndInput (tokens : List Token) : Prop :=
  ∃ t ∈ tokens.getLast?, t.kind = .endOfInput

theorem Token.EndInput.exists_end {before after : List Token} {close : Token}
    (h : EndInput (before ++ close :: after)) : ∃ t ∈ close :: after, t.kind = .endOfInput := by
  obtain ⟨t, hLast, hKind⟩ := h
  have hSome : (close :: after).getLast? = some t := by
    rw [List.getLast?_append, List.getLast?_cons] at hLast
    rw [List.getLast?_cons]
    exact hLast
  exact ⟨t, List.mem_of_getLast? hSome, hKind⟩

/-- The last token of a statement that wants a terminator leaves it open. -/
theorem Node.DrawnFrom.leaves_open {s : Stmt} {row : List Token}
    (h : (Node.stmt s).DrawnFrom row) (hs : s.isTerminated = true) :
    ∃ t, row.getLast? = some t ∧ leavesOpen t.kind = true := by
  obtain ⟨-, ⟨⟨room, ctx, hForm⟩, hBare⟩, -, -⟩ := h
  have hEnds := forms_declaration_ends hForm hs
  cases hLast : row.getLast? with
  | none =>
    rw [List.getLast?_eq_none_iff] at hLast
    rw [hLast] at hEnds
    rcases hEnds with ⟨ts, t, hRow, -⟩ | ⟨ts, t, hRow, -⟩ <;> simp at hRow
  | some t =>
    refine ⟨t, rfl, ?_⟩
    rcases hEnds with hEnds | hEnds
    · have hKind := hEnds.last hLast
      generalize t.kind = kind at hKind
      cases kind <;> first | rfl | cases hKind
    · exact absurd (beq_iff_eq.mp (hEnds.last hLast)) (hBare t hLast)

namespace Program

variable {before row after tokens : List Token} {semi close : Token} {p : Program} {s : Stmt}

theorem ofStream_eq {stream : TokenStream} {s' : Input}
    (h : Grammar.program (Input.ofStream stream) = .ok (p, s')) : ofStream? stream = .ok p := by
  unfold ofStream?
  rw [h]
  rfl

/-- A semicolon can be left out before what closes a row of statements. -/
theorem ofStream_without (hSemi : semi.kind = .semicolon) (hClose : close.kind.endsRow = true)
    (hEnd : ∃ t ∈ close :: after, t.kind = .endOfInput)
    (h : ofStream? ⟨before ++ semi :: close :: after, none⟩ = .ok p) :
    ofStream? ⟨before ++ close :: after, none⟩ = .ok p := by
  obtain ⟨s', hRun⟩ := exists_of_stream h
  have hOutcome := (Gap.mk semi close after False hSemi hClose hEnd).outcome_of_streams before
    False.elim
  simp only [Gap.left, Gap.right, hRun] at hOutcome
  generalize hRun' : Grammar.program _ = run at hOutcome
  cases hOutcome
  exact ofStream_eq hRun'

/-- A semicolon can be put before what closes a row of statements, behind a token that leaves a
statement open. -/
theorem ofStream_with (hSemi : semi.kind = .semicolon) (hClose : close.kind.endsRow = true)
    (hEnd : ∃ t ∈ close :: after, t.kind = .endOfInput)
    (hOpen : ∃ t, before.getLast? = some t ∧ leavesOpen t.kind = true)
    (h : ofStream? ⟨before ++ close :: after, none⟩ = .ok p) :
    ofStream? ⟨before ++ semi :: close :: after, none⟩ = .ok p := by
  obtain ⟨s', hRun⟩ := exists_of_stream h
  have hOutcome := (Gap.mk semi close after True hSemi hClose hEnd).outcome_of_streams before
    fun _ => hOpen
  simp only [Gap.left, Gap.right, hRun] at hOutcome
  generalize hRun' : Grammar.program _ = run at hOutcome
  cases hOutcome with
  | done => exact ofStream_eq hRun'
  | broken hFree => exact absurd trivial hFree

/-- The semicolon before what closes a row of statements is optional. Where it stands, the same
program is read without it. Where a statement that wants a terminator has none, the same program is
read with a semicolon behind the last token of the statement. -/
theorem terminator_optional :
    (∀ (before after : List Token) (semi close : Token) (p : Program),
      semi.kind = .semicolon → close.kind.endsRow = true →
      Token.EndInput (before ++ semi :: close :: after) →
      ofStream? ⟨before ++ semi :: close :: after, none⟩ = .ok p →
      ofStream? ⟨before ++ close :: after, none⟩ = .ok p) ∧
    ∀ (tokens : List Token) (p : Program), Token.EndInput tokens →
      ofStream? ⟨tokens, none⟩ = .ok p → (Node.program p).All fun n =>
        ∀ s, n = .stmt s → s.isTerminated = true →
          (∃ row, row <:+: tokens ∧ n.DrawnFrom row) ∧
          ∀ before row after semi close, tokens = before ++ (row ++ close :: after) →
            n.DrawnFrom row → close.kind.endsRow = true → semi.kind = .semicolon →
            ofStream? ⟨before ++ (row ++ semi :: close :: after), none⟩ = .ok p := by
  refine ⟨fun before after semi close p hSemi hClose hEnd h => ?_, fun tokens p hEnd h => ?_⟩
  · have hLater : Token.EndInput ((before ++ [semi]) ++ close :: after) := by
      rwa [List.append_assoc]
    exact ofStream_without hSemi hClose hLater.exists_end h
  · obtain ⟨front, rest, start, finish, hTokens, -, -, hRow, -⟩ := exists_row_of_stream h
    have hFront : front <:+: tokens := ⟨[], rest, hTokens.symm⟩
    refine .mk nofun fun c hc => ?_
    obtain ⟨part, hPart, hDrawn⟩ := hRow.exists_part hc
    refine (hDrawn.all_rows (hPart.trans hFront)).mono ?_
    rintro n hRows s rfl hs
    refine ⟨hRows, ?_⟩
    rintro before row after semi close rfl hHere hClose hSemi
    rw [← List.append_assoc] at hEnd h ⊢
    obtain ⟨t, hLast, hOpen⟩ := hHere.leaves_open hs
    refine ofStream_with hSemi hClose hEnd.exists_end ⟨t, ?_, hOpen⟩ h
    rw [List.getLast?_append, hLast]
    rfl

set_option maxRecDepth 100000 in
/-- A `return` in a function. -/
theorem terminator_optional_return : ∃ before row after : List Token, ∃ semi semi' close : Token,
    ∃ p s, before ++ (row ++ semi :: close :: after) =
        (TokenStream.ofSource "func f() \x7b return; \x7d").tokens ∧
      (Node.stmt s).DrawnFrom row ∧ semi'.pos ≠ semi.pos ∧
      ofStream? ⟨before ++ (row ++ semi :: close :: after), none⟩ = .ok p ∧
      ofStream? ⟨before ++ (row ++ close :: after), none⟩ = .ok p ∧
      ofStream? ⟨before ++ (row ++ semi' :: close :: after), none⟩ = .ok p := by
  let before : List Token := [⟨.kwFunc, "func", ⟨1, 1⟩, none⟩, ⟨.identifier, "f", ⟨1, 6⟩, none⟩,
    ⟨.leftParen, "(", ⟨1, 7⟩, none⟩, ⟨.rightParen, ")", ⟨1, 8⟩, none⟩,
    ⟨.leftBrace, "\x7b", ⟨1, 10⟩, none⟩]
  let row : List Token := [⟨.kwReturn, "return", ⟨1, 12⟩, none⟩]
  let semi : Token := ⟨.semicolon, ";", ⟨1, 18⟩, none⟩
  let semi' : Token := ⟨.semicolon, ";", ⟨1, 19⟩, none⟩
  let close : Token := ⟨.rightBrace, "\x7d", ⟨1, 20⟩, none⟩
  let after : List Token := [.eof ⟨1, 21⟩]
  let s : Stmt := .ret none (some ⟨⟨1, 12⟩, ⟨1, 18⟩⟩)
  have hDrawn : (Node.stmt s).DrawnFrom row := by
    have hForm : (forms 1).declaration Context.top.func (row.map Token.terminal)
        (.mark .rightBrace) s := .ret _ rfl .none (.omitted (.inl rfl))
    exact .mk (by decide) ⟨⟨1, _, hForm⟩, by decide⟩ rfl .done
  have hTokens : before ++ (row ++ semi :: close :: after) =
      (TokenStream.ofSource "func f() \x7b return; \x7d").tokens := by
    cbv
  let body : Block := ⟨[s], some ⟨⟨1, 10⟩, ⟨1, 21⟩⟩⟩
  let func : FuncDef :=
    ⟨⟨"f", some ⟨⟨1, 6⟩, ⟨1, 7⟩⟩⟩, [], body, some ⟨⟨1, 1⟩, ⟨1, 21⟩⟩⟩
  let p : Program := ⟨[.func func], some ⟨⟨1, 1⟩, ⟨1, 21⟩⟩⟩
  have hWith : ofStream? ⟨before ++ (row ++ semi :: close :: after), none⟩ = .ok p := by
    dsimp only [before, row, semi, close, after, p, func, body, s]
    rfl
  have hWithout : ofStream? ⟨before ++ (row ++ close :: after), none⟩ = .ok p :=
    terminator_optional.1 (before ++ row) after semi close p rfl rfl ⟨_, rfl, rfl⟩ hWith
  have hTree := terminator_optional.2 _ p ⟨_, rfl, rfl⟩ hWithout
  have hFunc := hTree.child (c := .stmt (.func func)) List.mem_cons_self
  have hBlock := hFunc.child (c := .block body) (.tail _ (.head _))
  have hReturn := hBlock.child (c := .stmt s) List.mem_cons_self
  exact ⟨before, row, after, semi, semi', close, p, s, hTokens, hDrawn, by decide, hWith, hWithout,
    (hReturn.here s rfl rfl).2 before row after semi' close rfl hDrawn rfl rfl⟩

end Program

end Tern
