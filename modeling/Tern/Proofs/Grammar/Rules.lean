import Tern.Proofs.Grammar.Pairing

/-!
# The rules of a descent

Every rule of the descent agrees with the parser of the same construct, if the rules that it calls
do. Where a descent looks for one kind of token after the other, a parser may tell them apart at
once; and an operator that the descent tells from the token last taken, the parser knows before it
takes it.

* `Pairing.runs_acceptAs`: tokens that are wanted for something;
* `Pairing.pairs_binary`, `Pairing.pairs_logical`: operands with operators between them;
* `Pairing.pairs_assignment`, `Pairing.pairs_call`: what else makes up expressions;
* `Pairing.pairs_classDef`, `Pairing.pairs_forStmt`: what makes up statements.
-/

namespace Tern.Pairing

open Tern.Parser Grammar

variable {D : Pairing} {α β : Type} {xs ys : List Token} {t t' : Token} {go : Descent.Caller}
  {depth : Nat} {ctx : Context} {l : Level} {what : String}

/-! ## Parsers that call no rule -/

theorem runs_thisExpr : D.Runs xs (Descent.lift (thisExpr ctx t)) (thisExpr ctx t)
    fun _ _ => True := by
  unfold thisExpr
  rw [lift_ite]
  refine runs_ite (fun _ => runs_failAt (shown_refl t)) fun _ => ?_
  exact runs_spanned _

theorem runs_superExpr : D.Runs xs (Descent.lift (superExpr ctx t)) (superExpr ctx t)
    fun _ _ => True := by
  unfold superExpr
  split
  · exact runs_failAt (shown_refl t)
  · exact runs_failAt (shown_refl t)
  · rw [lift_bind]
    refine runs_expect_bind (by decide) fun _ ys _ _ => ?_
    rw [lift_bind]
    refine runs_ident_bind fun _ zs method _ => ?_
    exact runs_spanned _

theorem runs_terminated (a : α) : D.Runs xs (Descent.lift (terminated a)) (terminated a)
    fun _ _ => True := by
  unfold terminated
  rw [lift_bind]
  refine runs_accept_bind (by decide) (fun t ys _ _ => runs_pure trivial) ?_
  rw [if_neg Bool.false_ne_true, lift_bind]
  refine runs_atClose_bind fun t t' b _ _ => ?_
  rw [lift_ite]
  refine runs_ite (fun _ => runs_pure trivial) fun _ => ?_
  rw [lift_bind]
  exact runs_peek_bind fun t t' hSees => runs_failAt hSees.shown

theorem runs_param (before : List Ident) (xs : List Token) :
    D.Runs xs (Descent.lift (param before)) (param before) fun ys _ => ys.length < xs.length := by
  unfold param
  rw [lift_bind]
  refine runs_ident_bind fun t ys id hRow => runs_after ?_ ?_
  · rw [hRow]
    exact Nat.lt_succ_self _
  · rw [lift_ite]
    refine runs_ite (fun _ => ?_) fun _ => runs_pure trivial
    rw [lift_bind]
    exact runs_previous_bind fun t t' hShown => runs_failAt hShown

theorem runs_superclass (id : Ident) : D.Runs xs (Descent.lift (superclass id)) (superclass id)
    fun _ _ => True := by
  unfold superclass
  rw [lift_bind]
  refine runs_accept_bind (by decide) (fun t ys _ _ => ?_) (runs_pure trivial)
  rw [if_pos rfl, lift_bind]
  refine runs_ident_bind fun _ zs parent _ => ?_
  rw [lift_ite]
  refine runs_ite (fun _ => ?_) fun _ => runs_pure trivial
  rw [lift_bind]
  exact runs_previous_bind fun t t' hShown => runs_failAt hShown

/-- A jump, which needs something around it. -/
theorem pairs_jump {c : Prop} [Decidable c] {cause : ParseCause} {s : Option Span → Stmt} :
    D.Pairs true
      (Descent.lift do
        let keyword ← advance
        if c then terminated (s (← spanFrom keyword)) else failAt keyword cause)
      (do
        let keyword ← advance
        if c then terminated (s (← spanFrom keyword)) else failAt keyword cause) := by
  rw [lift_bind]
  refine runs_keyword_bind fun t ys => ?_
  rw [lift_ite]
  refine runs_ite (fun _ => ?_) fun _ => runs_failAt (shown_refl t)
  rw [lift_bind]
  exact runs_spanFrom_bind fun v => runs_terminated _

/-! ## Tokens with a meaning -/

section

variable {s s' : Input} {kind : TokenKind}

theorem accept_of_eq (hPeek : peek s = .ok (t, s)) (hKind : t.kind = kind)
    (hAdvance : advance s = .ok (t, s')) : accept kind s = .ok (true, s') := by
  unfold accept check
  rw [bind_assoc, bind_ok hPeek, pure_bind, decide_eq_true hKind, if_pos rfl, bind_ok hAdvance]
  rfl

theorem accept_of_ne (hPeek : peek s = .ok (t, s)) (hKind : t.kind ≠ kind) :
    accept kind s = .ok (false, s) := by
  unfold accept check
  rw [bind_assoc, bind_ok hPeek, pure_bind, decide_eq_false hKind]
  rfl

theorem accept_then (hPeek : peek s = .ok (t, s)) (hKind : t.kind = kind)
    (hAdvance : advance s = .ok (t, s')) (p p' : Parser α) :
    (accept kind >>= fun b => if b then p else p') s = p s' := by
  rw [bind_ok (accept_of_eq hPeek hKind hAdvance), if_pos rfl]

theorem accept_else (hPeek : peek s = .ok (t, s)) (hKind : t.kind ≠ kind) (p p' : Parser α) :
    (accept kind >>= fun b => if b then p else p') s = p' s := by
  rw [bind_ok (accept_of_ne hPeek hKind), if_neg Bool.false_ne_true]

/-- Where the token ahead is wanted on one side it is taken on the other, with the same meaning. -/
theorem runs_acceptAs {more : Descent (Option β)} {wanted : TokenKind → Option β}
    (hEnd : wanted .endOfInput = none)
    (hNone : ∀ s t, peek s = .ok (t, s) → wanted t.kind = none → more s = .ok (none, s))
    (hSome : ∀ s t s' b, peek s = .ok (t, s) → wanted t.kind = some b → advance s = .ok (t, s') →
      s'.last = some t → more s = .ok (some b, s')) :
    D.Runs xs more (acceptAs wanted) fun ys b => b ≠ none → ys.length < xs.length := by
  intro s u hAlike
  obtain ⟨t, t', hSees, hLeft, hRight⟩ := hAlike.peek
  unfold acceptAs
  rw [bind_ok hRight, hSees.kind]
  cases hWanted : wanted t.kind with
  | none =>
    rw [hNone s t hLeft hWanted]
    exact .done List.suffix_rfl hAlike nofun
  | some b =>
    have hKind : t.kind ≠ .endOfInput := by
      intro hKind
      rw [hKind, hEnd] at hWanted
      cases hWanted
    obtain ⟨rfl, ys, rfl⟩ := hSees.exists_cons hKind
    obtain ⟨s', u', hThere, hLast, hTaken, hTaken'⟩ := hAlike.advance
    rw [hSome s _ s' b hLeft hWanted hTaken hLast]
    dsimp only
    rw [bind_ok hTaken']
    exact .done (List.suffix_cons _ _) hThere fun _ => Nat.lt_succ_self _

/-- Rounds that are opened by tokens with a meaning. -/
theorem runs_rounds {more : Descent (Option β)} {wanted : TokenKind → Option β}
    {step : α → β → Descent α} {step' : α → β → Parser α}
    (hMore : ∀ xs, D.Runs xs more (acceptAs wanted) fun ys b => b ≠ none → ys.length < xs.length)
    (hStep : ∀ a b xs, D.Runs xs (step a b) (step' a b) fun _ _ => True) (a : α) :
    D.Runs xs (Descent.loop more step D.rounds a) (chain (acceptAs wanted) step' a)
      fun _ _ => True := by
  refine runs_chain (Q := fun _ => True) (fun xs => runs_mono (hMore xs) fun ys b _ hLess => ?_) a
  refine ⟨fun _ => trivial, fun c hc a => runs_after (hLess ?_) (hStep a c ys)⟩
  rw [hc]
  exact Option.some_ne_none c

theorem runs_suffix : D.Runs xs (Descent.lift Descent.suffix) (acceptAs Suffix.ofKind)
    fun ys b => b ≠ none → ys.length < xs.length := by
  refine runs_acceptAs rfl (fun s t hPeek hNone => ?_) fun s t s' b hPeek hSome hAdvance _ => ?_
  · have hNot (kind : TokenKind) (hKind : Suffix.ofKind kind ≠ none) : t.kind ≠ kind := by
      rintro rfl
      exact hKind hNone
    rw [Descent.lift, Descent.suffix, accept_else hPeek (hNot .leftParen (by decide)),
      accept_else hPeek (hNot .dot (by decide)), accept_else hPeek (hNot .leftBracket (by decide))]
    rfl
  · have hKind : t.kind = .leftParen ∧ b = .call ∨ t.kind = .dot ∧ b = .member ∨
        t.kind = .leftBracket ∧ b = .index := by
      generalize t.kind = kind at hSome
      cases kind <;> cases hSome <;> decide
    obtain ⟨hCall, rfl⟩ | ⟨hMember, rfl⟩ | ⟨hIndex, rfl⟩ := hKind
    · rw [Descent.lift, Descent.suffix, accept_then hPeek hCall hAdvance]
      rfl
    · rw [Descent.lift, Descent.suffix, accept_else hPeek (hMember ▸ by decide),
        accept_then hPeek hMember hAdvance]
      rfl
    · rw [Descent.lift, Descent.suffix, accept_else hPeek (hIndex ▸ by decide),
        accept_else hPeek (hIndex ▸ by decide), accept_then hPeek hIndex hAdvance]
      rfl

/-! ## Operators -/

/-- Operands with operators between them. -/
theorem pairs_leftAssoc {more : Descent (Option β)} {op : TokenKind → Option β}
    {join : β → Expr → Expr → Option Span → Expr} {p : Descent Expr} {q : Parser Expr}
    (hMore : ∀ xs, D.Runs xs more (acceptAs op) fun ys b => b ≠ none → ys.length < xs.length)
    (h : D.Pairs false p q) :
    D.Pairs false (do
        let start ← Descent.lift peek
        let first ← p
        Descent.loop more (fun left b => do
          let right ← p
          pure (join b left right (← Descent.lift (spanFrom start)))) D.rounds first)
      (leftAssoc op join q) := by
  intro xs _
  refine runs_peek_bind fun t t' hSees => runs_bind h.runs fun ys e _ hLess => ?_
  obtain rfl := hSees.eq_of_lt hLess
  refine runs_after hLess (runs_rounds hMore (fun e b xs => ?_) e)
  exact runs_bind h.runs fun zs r _ _ => runs_spanned _

theorem pairs_logical {op : LogicalOp} {wanted : TokenKind → Option LogicalOp} {p : Descent Expr}
    {q : Parser Expr} (hEnd : wanted .endOfInput = none)
    (hWanted : ∀ k, wanted k = if k = kind then some op else none) (h : D.Pairs false p q) :
    D.Pairs false (Descent.logical D.rounds kind op p) (leftAssoc wanted .logical q) := by
  refine pairs_leftAssoc (fun xs => ?_) h
  refine runs_acceptAs hEnd (fun s t hPeek hNone => ?_) fun s t s' b hPeek hSome hAdvance _ => ?_
  · rw [hWanted, ite_eq_right_iff] at hNone
    exact lift_bind_ok (accept_of_ne hPeek fun hKind => Option.some_ne_none _ (hNone hKind))
  · rw [hWanted, Option.ite_none_right_eq_some, Option.some.injEq] at hSome
    obtain ⟨hKind, rfl⟩ := hSome
    exact lift_bind_ok (accept_of_eq hPeek hKind hAdvance)

theorem acceptAny_of_mem {kinds : List TokenKind} (hPeek : peek s = .ok (t, s))
    (hAdvance : advance s = .ok (t, s')) (h : t.kind ∈ kinds) :
    Descent.acceptAny kinds s = .ok (true, s') := by
  induction kinds with
  | nil => cases h
  | cons kind kinds ih =>
    unfold Descent.acceptAny
    by_cases hKind : t.kind = kind
    · rw [accept_then hPeek hKind hAdvance]
      rfl
    · rw [accept_else hPeek hKind]
      exact ih ((List.mem_cons.mp h).resolve_left hKind)

theorem acceptAny_of_not_mem {kinds : List TokenKind} (hPeek : peek s = .ok (t, s))
    (h : t.kind ∉ kinds) : Descent.acceptAny kinds s = .ok (false, s) := by
  induction kinds with
  | nil => rfl
  | cons kind kinds ih =>
    obtain ⟨hKind, hKinds⟩ := not_or.mp (mt List.mem_cons.mpr h)
    unfold Descent.acceptAny
    rw [accept_else hPeek hKind]
    exact ih hKinds

/-- An operator that has been taken is told from its kind. -/
theorem pairs_binary {kinds : List TokenKind} {wanted : TokenKind → Option BinaryOp}
    {p : Descent Expr} {q : Parser Expr} (hEnd : wanted .endOfInput = none)
    (hKinds : ∀ k, k ∉ kinds ∧ wanted k = none ∨
      ∃ b, k ∈ kinds ∧ wanted k = some b ∧ Descent.operator k = pure b)
    (h : D.Pairs false p q) :
    D.Pairs false (Descent.binary D.rounds kinds p) (leftAssoc wanted .binary q) := by
  refine pairs_leftAssoc (fun xs => ?_) h
  refine runs_acceptAs hEnd (fun s t hPeek hWanted => ?_)
    fun s t s' b hPeek hWanted hAdvance hLast => ?_
  · obtain ⟨hNot, -⟩ | ⟨b, -, hSome, -⟩ := hKinds t.kind
    · exact lift_bind_ok (acceptAny_of_not_mem hPeek hNot)
    · rw [hWanted] at hSome
      cases hSome
  · obtain ⟨-, hNone⟩ | ⟨op, hMem, hSome, hOperator⟩ := hKinds t.kind
    · rw [hWanted] at hNone
      cases hNone
    · rw [hWanted] at hSome
      obtain rfl := Option.some.inj hSome
      refine (lift_bind_ok (acceptAny_of_mem hPeek hAdvance hMem)).trans ?_
      refine (lift_bind_ok (previous_some hLast)).trans ?_
      rw [hOperator]
      rfl

end

theorem pairs_unary
    (hOperand : D.Pairs false (Descent.nested depth fun depth => go _ .unary depth ctx)
      (l.operand ctx))
    (hCall : D.Pairs false (go _ .call depth ctx) (call l ctx)) :
    D.Pairs false (Descent.unary go depth ctx) (unary l ctx) := by
  intro xs _
  refine runs_look fun t t' hSees => ?_
  refine runs_check_left hSees (runs_check_left hSees (runs_peek_right hSees ?_))
  have hEither : (decide (t.kind = .bang) || decide (t.kind = .minus)) = true ↔
      t.kind = .bang ∨ t.kind = .minus := by
    rw [Bool.or_eq_true, decide_eq_true_iff, decide_eq_true_iff]
  rw [hSees.kind]
  by_cases hOp : t.kind = .bang ∨ t.kind = .minus
  · have hEnd : t.kind ≠ .endOfInput := by
      rcases hOp with h | h <;> rw [h] <;> decide
    have hSame : unaryOp t.kind = some (if t.kind = .bang then .not else .negate) := by
      rcases hOp with h | h <;> rw [h] <;> rfl
    obtain ⟨rfl, ys, rfl⟩ := hSees.exists_cons hEnd
    rw [if_pos (hEither.mpr hOp), hSame]
    refine runs_advance_bind (runs_after (Nat.lt_succ_self _) ?_)
    exact runs_bind hOperand.runs fun zs e _ _ => runs_spanned _
  · have hNone : unaryOp t.kind = none := by
      obtain ⟨hBang, hMinus⟩ := not_or.mp hOp
      unfold unaryOp
      split <;> trivial
    rw [if_neg (mt hEither.mp hOp), hNone]
    exact hCall.runs

theorem pairs_assignment (hOr : D.Pairs false (go _ .logicOr depth ctx) (logicOr l ctx))
    (hValue : D.Pairs false (Descent.nested depth fun depth => go _ .assignment depth ctx)
      (l.expression ctx)) :
    D.Pairs false (Descent.assignment go depth ctx) (assignment l ctx) := by
  intro xs _
  refine runs_peek_bind fun start start' hSees => runs_bind hOr.runs fun ys target _ hLess => ?_
  obtain rfl := hSees.eq_of_lt hLess
  refine runs_after hLess ?_
  refine runs_check_bind fun t t' hHere => runs_ite (fun hEqual => ?_) fun _ => runs_pure trivial
  obtain ⟨rfl, zs, rfl⟩ := hHere.exists_cons (of_decide_eq_true hEqual ▸ by decide)
  refine runs_advance_bind (runs_mono ?_ fun _ _ _ => id)
  refine runs_bind hValue.runs fun ws value _ _ => runs_spanFrom_bind fun v => ?_
  cases hAssign : assignTo? target value v with
  | some e => exact runs_pure trivial
  | none => exact runs_failAt (shown_refl _)

/-! ## Operands -/

/-- A token that is an expression by itself. -/
theorem runs_leaf (hTaken : t' = t ∧ ∃ ys, xs = t :: ys)
    (e : Token → Option Span → Expr) :
    D.Runs xs
      (Descent.lift advance >>= fun _ => Descent.lift (spanFrom t) >>= fun v => pure (e t v))
      (advance >>= fun _ => spanFrom t' >>= fun v => pure (e t' v))
      fun ys _ => ys.length < xs.length := by
  obtain ⟨rfl, ys, rfl⟩ := hTaken
  exact runs_advance_bind (runs_spanFrom_bind fun v => runs_pure (Nat.lt_succ_self _))

section

variable (hExpr : D.Pairs false (go _ .expression depth ctx) (l.expression ctx))
include hExpr

theorem pairs_primary :
    D.Pairs false (Descent.primary D.rounds go depth ctx) (primary l ctx) := by
  intro xs _
  refine runs_peek_bind fun t t' hSees => ?_
  rw [hSees.kind]
  have hTaken := hSees.exists_cons
  generalize t.kind = kind at hTaken
  cases kind
  case number => exact runs_leaf (hTaken nofun) fun t v => .number (numberValue t) v
  case string => exact runs_leaf (hTaken nofun) fun t v => .string (stringValue t) v
  case kwTrue => exact runs_leaf (hTaken nofun) fun t v => .boolean true v
  case kwFalse => exact runs_leaf (hTaken nofun) fun t v => .boolean false v
  case kwNull => exact runs_leaf (hTaken nofun) fun t v => .null v
  case kwThis =>
    obtain ⟨rfl, ys, rfl⟩ := hTaken nofun
    exact runs_advance_bind (runs_after (Nat.lt_succ_self _) runs_thisExpr)
  case kwSuper =>
    obtain ⟨rfl, ys, rfl⟩ := hTaken nofun
    exact runs_advance_bind (runs_after (Nat.lt_succ_self _) runs_superExpr)
  case identifier => exact runs_leaf (hTaken nofun) fun t v => .name ⟨t.lexeme, v⟩
  case leftParen =>
    obtain ⟨rfl, ys, rfl⟩ := hTaken nofun
    refine runs_advance_bind (runs_after (Nat.lt_succ_self _) ?_)
    refine runs_bind hExpr.runs fun zs e _ _ => ?_
    exact runs_expect_bind (by decide) fun _ _ _ _ => runs_pure trivial
  case leftBracket =>
    obtain ⟨rfl, ys, rfl⟩ := hTaken nofun
    refine runs_advance_bind (runs_after (Nat.lt_succ_self _) ?_)
    refine runs_bind (runs_commaSeparated fun _ _ => hExpr.runs) fun zs es _ _ => ?_
    refine runs_expect_bind (by decide) fun _ _ _ _ => ?_
    exact runs_spanned _
  all_goals exact runs_failAt hSees.shown

theorem runs_suffixed
    (start : Token) (e : Expr) (s : Suffix) :
    D.Runs xs (Descent.suffixed D.rounds go depth ctx start e s) (suffixed l ctx start e s)
      fun _ _ => True := by
  cases s with
  | call =>
    refine runs_bind (runs_commaSeparated fun _ _ => hExpr.runs) fun ys es _ _ => ?_
    refine runs_expect_bind (by decide) fun _ _ _ _ => ?_
    exact runs_spanned _
  | member =>
    exact runs_ident_bind fun _ ys id _ => runs_spanned _
  | index =>
    refine runs_bind hExpr.runs fun ys e _ _ => ?_
    refine runs_expect_bind (by decide) fun _ _ _ _ => ?_
    exact runs_spanned _

theorem pairs_call
    (hPrimary : D.Pairs false (go _ .primary depth ctx) (primary l ctx)) :
    D.Pairs false (Descent.call D.rounds go depth ctx) (call l ctx) := by
  intro xs _
  refine runs_peek_bind fun t t' hSees => runs_bind hPrimary.runs fun ys e _ hLess => ?_
  obtain rfl := hSees.eq_of_lt hLess
  exact runs_after hLess
    (runs_rounds (fun _ => runs_suffix) (fun e s _ => runs_suffixed hExpr t' e s) e)

/-! ## Simple statements -/

theorem pairs_parenthesized {keyword : String} :
    D.Pairs false (Descent.parenthesized go depth ctx keyword) (parenthesized l ctx keyword) :=
  runs_opening_bind (by decide) fun t ys => runs_bind hExpr.runs fun zs e _ _ =>
    runs_expect_bind (by decide) fun _ _ _ _ => runs_pure trivial

theorem pairs_varDecl :
    D.Pairs true (Descent.varDeclaration go depth ctx) (varDecl l ctx) := by
  refine runs_keyword_bind fun t ys => runs_ident_bind fun _ _ id _ => ?_
  refine runs_accept_bind (by decide) (fun _ zs _ _ => ?_) (runs_spanned _)
  exact runs_bind (runs_some hExpr.runs) fun _ _ _ _ => runs_spanned _

theorem pairs_constDecl :
    D.Pairs true (Descent.constDeclaration go depth ctx) (constDecl l ctx) := by
  refine runs_keyword_bind fun t ys => runs_ident_bind fun _ _ id _ => ?_
  refine runs_expect_bind (by decide) fun _ _ _ _ => ?_
  refine runs_bind hExpr.runs fun zs e _ _ => ?_
  exact runs_spanned _

theorem pairs_exprStmt :
    D.Pairs false (Descent.expressionStatement go depth ctx) (exprStmt l ctx) := by
  intro xs _
  refine runs_peek_bind fun t t' hSees => runs_bind hExpr.runs fun ys e _ hLess => ?_
  obtain rfl := hSees.eq_of_lt hLess
  exact runs_after hLess (runs_spanned _)

theorem pairs_throwStmt :
    D.Pairs true (Descent.throwStatement go depth ctx) (throwStmt l ctx) := by
  refine runs_keyword_bind fun t ys => runs_bind hExpr.runs fun _ _ _ _ => ?_
  exact runs_spanFrom_bind fun v => runs_terminated _

theorem runs_returnValue :
    D.Runs xs (Descent.returnValue go depth ctx) (returnValue l ctx) fun _ _ => True := by
  refine runs_check_bind fun t t' hSees => ?_
  by_cases hKind : t.kind = .semicolon
  · rw [decide_eq_true hKind, if_pos rfl]
    exact runs_atClose_left hSees (runs_pure trivial)
  · rw [decide_eq_false hKind, if_neg Bool.false_ne_true]
    refine runs_atClose_bind fun v v' b _ _ => ?_
    cases b with
    | true => exact runs_pure trivial
    | false => exact runs_some hExpr.runs

theorem pairs_returnStmt :
    D.Pairs true (Descent.returnStatement go depth ctx) (returnStmt l ctx) := by
  refine runs_keyword_bind fun t ys => runs_ite (fun _ => ?_) fun _ => runs_failAt (shown_refl t)
  refine runs_bind (runs_returnValue hExpr) fun zs argument _ _ => ?_
  exact runs_spanFrom_bind fun v => runs_terminated _

theorem runs_optionalBefore {close : TokenKind} :
    D.Runs xs (Descent.optionalBefore go depth ctx close) (optionalBefore l ctx close)
      fun _ _ => True :=
  runs_check_bind fun _ _ _ => runs_ite (fun _ => runs_pure trivial) fun _ => runs_some hExpr.runs

end

/-! ## Blocks and declarations -/

theorem pairs_block
    (hDeclaration : D.Pairs false (go _ .declaration depth ctx) (l.declaration ctx)) :
    D.Pairs false (Descent.block D.rounds go depth ctx what) (block l ctx what) := by
  refine runs_opening_bind (by decide) fun t ys => ?_
  refine runs_bind (runs_untilClose fun _ => hDeclaration.runs) fun zs body _ _ => ?_
  refine runs_expect_bind (by decide) fun _ _ _ _ => ?_
  exact runs_spanned _

theorem pairs_funcDef (hBlock : ∀ ctx, D.Pairs false (go _ (.block (what ++ " body")) depth ctx)
      (block l ctx (what ++ " body"))) :
    D.Pairs true (Descent.functionDeclaration D.rounds go depth ctx what) (funcDef l ctx what) := by
  refine runs_keyword_bind fun t ys => runs_ident_bind fun _ _ id _ => ?_
  refine runs_expect_bind (by decide) fun _ _ _ _ => ?_
  refine runs_bind (runs_commaSeparated runs_param) fun zs params _ _ => ?_
  refine runs_expect_bind (by decide) fun _ _ _ _ => ?_
  refine runs_bind (hBlock _).runs fun ws body _ _ => ?_
  exact runs_spanned _

theorem runs_method (hFunc : D.Pairs true (go _ (.functionDeclaration "method") depth ctx)
      (funcDef l ctx "method")) :
    D.Runs xs (Descent.method go depth ctx) (method l ctx) fun ys _ => ys.length < xs.length := by
  refine runs_peek_bind fun t t' hSees => ?_
  rw [hSees.kind]
  refine runs_ite (fun hKind => ?_) fun _ => runs_failAt hSees.shown
  obtain ⟨-, ys, rfl⟩ := hSees.exists_cons (hKind ▸ by decide)
  exact hFunc _ fun _ => List.cons_ne_nil _ _

theorem pairs_classDef (hFunc : ∀ ctx, D.Pairs true (go _ (.functionDeclaration "method") depth ctx)
      (funcDef l ctx "method")) :
    D.Pairs true (Descent.classDeclaration D.rounds go depth ctx) (classDef l ctx) := by
  refine runs_keyword_bind fun t ys => runs_ident_bind fun _ _ id _ => ?_
  refine runs_bind (runs_superclass id) fun zs parent _ _ => ?_
  refine runs_expect_bind (by decide) fun _ _ _ _ => ?_
  refine runs_bind (runs_untilClose fun _ => runs_method (hFunc _)) fun ws methods _ _ => ?_
  refine runs_expect_bind (by decide) fun _ _ _ _ => ?_
  exact runs_spanned _

/-! ## Control flow -/

theorem pairs_elifClause
    (hCondition : D.Pairs false (go _ (.parenthesized "elif") depth ctx)
      (parenthesized l ctx "elif"))
    (hBody : D.Pairs false (go _ (.block "elif body") depth ctx) (block l ctx "elif body")) :
    D.Pairs true (Descent.elifClause go depth ctx) (elifClause l ctx) := by
  refine runs_keyword_bind fun t ys => runs_bind hCondition.runs fun _ _ _ _ => ?_
  refine runs_bind hBody.runs fun _ _ _ _ => ?_
  exact runs_spanned _

theorem pairs_ifStmt
    (hCondition : ∀ keyword, D.Pairs false (go _ (.parenthesized keyword) depth ctx)
      (parenthesized l ctx keyword))
    (hBlock : ∀ what, D.Pairs false (go _ (.block what) depth ctx) (block l ctx what)) :
    D.Pairs true (Descent.ifStatement D.rounds go depth ctx) (ifStmt l ctx) := by
  refine runs_keyword_bind fun t ys => runs_bind (hCondition _).runs fun _ _ _ _ => ?_
  refine runs_bind (hBlock _).runs fun zs body _ _ => ?_
  unfold elifClauses
  rw [bind_assoc]
  refine runs_bind (runs_chain (Q := fun _ => True) (fun ws => ?_) []) fun ws elifs _ _ => ?_
  · refine runs_check_bind fun t t' hSees => runs_ite (fun hKind => ?_) fun _ =>
      runs_pure ⟨fun _ => trivial, nofun⟩
    obtain ⟨-, vs, rfl⟩ := hSees.exists_cons (of_decide_eq_true hKind ▸ by decide)
    refine runs_pure ⟨nofun, fun _ _ clauses => ?_⟩
    exact runs_bind (pairs_elifClause (hCondition _) (hBlock _) _ fun _ => List.cons_ne_nil _ _)
      fun _ _ _ hLess => runs_pure hLess
  · rw [pure_bind]
    refine runs_accept_bind (by decide) (fun _ vs _ _ => ?_) (runs_spanned _)
    exact runs_bind (runs_some (hBlock _).runs) fun _ _ _ _ => runs_spanned _

theorem pairs_whileStmt
    (hCondition : D.Pairs false (go _ (.parenthesized "while") depth ctx)
      (parenthesized l ctx "while"))
    (hBody : D.Pairs false (go _ (.loopBody "while body") depth ctx)
      (loopBody l ctx "while body")) :
    D.Pairs true (Descent.whileStatement go depth ctx) (whileStmt l ctx) := by
  refine runs_keyword_bind fun t ys => runs_bind hCondition.runs fun _ _ _ _ => ?_
  refine runs_bind hBody.runs fun _ _ _ _ => ?_
  exact runs_spanned _

theorem pairs_tryStmt
    (hBlock : ∀ what, D.Pairs false (go _ (.block what) depth ctx) (block l ctx what)) :
    D.Pairs true (Descent.tryStatement go depth ctx) (tryStmt l ctx) := by
  refine runs_keyword_bind fun t ys => runs_bind (hBlock _).runs fun _ _ _ _ => ?_
  refine runs_expect_bind (by decide) fun _ _ _ _ => ?_
  refine runs_expect_bind (by decide) fun _ _ _ _ => runs_ident_bind fun _ _ id _ => ?_
  refine runs_expect_bind (by decide) fun _ _ _ _ => ?_
  refine runs_bind (hBlock _).runs fun _ _ _ _ => ?_
  exact runs_spanned _

theorem runs_forStart (hVar : D.Pairs true (go _ .varDeclaration depth ctx) (varDecl l ctx))
    (hConst : D.Pairs true (go _ .constDeclaration depth ctx) (constDecl l ctx))
    (hStmt : D.Pairs false (go _ .expressionStatement depth ctx) (exprStmt l ctx)) :
    D.Runs xs (Descent.forStart go depth ctx) (forStart l ctx) fun _ _ => True := by
  refine runs_look fun t t' hSees => ?_
  refine runs_case_left hSees (fun h => runs_peek_right hSees ?_) fun hNotVar => ?_
  · rw [hSees.kind, h]
    have hRow := hSees.ne_nil (h ▸ by decide)
    exact runs_some (hVar xs fun _ => hRow)
  refine runs_case_left hSees (fun h => runs_peek_right hSees ?_) fun hNotConst => ?_
  · rw [hSees.kind, h]
    have hRow := hSees.ne_nil (h ▸ by decide)
    exact runs_some (hConst xs fun _ => hRow)
  refine runs_case_left hSees (fun h => runs_peek_right hSees ?_) fun hSome => ?_
  · rw [hSees.kind, h]
    exact runs_pure trivial
  refine runs_peek_right hSees ?_
  rw [hSees.kind]
  split
  case h_4 => exact runs_some hStmt.runs
  all_goals contradiction

theorem pairs_forStmt
    (hVar : D.Pairs true (go _ .varDeclaration depth ctx) (varDecl l ctx))
    (hConst : D.Pairs true (go _ .constDeclaration depth ctx) (constDecl l ctx))
    (hStmt : D.Pairs false (go _ .expressionStatement depth ctx) (exprStmt l ctx))
    (hExpr : D.Pairs false (go _ .expression depth ctx) (l.expression ctx))
    (hBody : D.Pairs false (go _ (.loopBody "for body") depth ctx) (loopBody l ctx "for body")) :
    D.Pairs true (Descent.forStatement go depth ctx) (forStmt l ctx) := by
  refine runs_keyword_bind fun t ys => runs_expect_bind (by decide) fun _ _ _ _ => ?_
  refine runs_bind (runs_forStart hVar hConst hStmt) fun _ start _ _ => ?_
  refine runs_expect_bind (by decide) fun _ _ _ _ => ?_
  refine runs_bind (runs_optionalBefore hExpr) fun _ condition _ _ => ?_
  refine runs_expect_bind (by decide) fun _ _ _ _ => ?_
  refine runs_bind (runs_optionalBefore hExpr) fun _ update _ _ => ?_
  refine runs_expect_bind (by decide) fun _ _ _ _ => ?_
  refine runs_bind hBody.runs fun _ body _ _ => ?_
  exact runs_spanned _

end Tern.Pairing
