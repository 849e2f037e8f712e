import Tern.Proofs.Grammar.Placement
import Tern.Proofs.Grammar.Reading
import Tern.Proofs.Grammar.Rendering
import Tern.Proofs.Syntax.Respan

/-!
# Parsers are complete

The parser accepts every row of the grammar, and gives back the tree that the row spells, up to
spans. What comes after the row matters: a terminal that binds tighter than the row would be taken
along with it.

* `Grammar.CompleteAt`: the parsers of a level accept the forms of the level;
* `Grammar.completeAt`: all levels do;
* `Program.of_whole`: so a program is parsed from each row that spells it;
* `Program.parse_phrase`: and a tree that is written down is read back.
-/

namespace Tern

open Terminal (first ahead isMark)

namespace Grammar

open Tern.Parser Form

/-- A statement may have this kind after it. -/
def Follows (kind : TokenKind) : Prop :=
  opensStatement kind = true ∨ kind = .rightBrace ∨ kind = .endOfInput

/-- The parsers with room for a number of levels read the forms with as much room. -/
structure CompleteAt (room : Nat) : Prop where
  expression : ∀ {ctx xs e rest}, (forms room).expression ctx xs e →
    tierOf (ahead rest).kind = 0 →
    Reads ((level room).expression ctx) xs rest fun e' => e'.bare = e.bare
  operand : ∀ {ctx xs e rest}, (forms room).operand ctx xs e →
    tierOf (ahead rest).kind < 8 →
    Reads ((level room).operand ctx) xs rest fun e' => e'.bare = e.bare
  declaration : ∀ {ctx xs s rest}, (forms room).declaration ctx xs (ahead rest) s →
    Follows (ahead rest).kind →
    Reads ((level room).declaration ctx) xs rest fun s' => s'.bare = s.bare

variable {room : Nat} {ctx : Context} {xs rest : List Terminal}

/-! ## Lists -/

section

variable {α γ : Type} {same : α → γ}

/-- What may come after an item between commas. -/
theorem ahead_afterCommas {form : List Terminal → α → Prop} {as : List α} {close : TokenKind}
    (h : AfterCommas form xs as) (hClose : (ahead rest).kind = close) :
    (ahead (xs ++ rest)).kind = .comma ∨ (ahead (xs ++ rest)).kind = close := by
  cases h with
  | nil => exact .inr hClose
  | cons => exact .inl rfl

theorem of_append_left {L : List γ → Prop} (hTail : ∀ c cs, L (c :: cs) → L cs) (before cs : List γ)
    (h : L (before ++ cs)) : L cs := by
  induction before with
  | nil => exact h
  | cons c before ih => exact ih (hTail _ _ h)

theorem reads_commaSeparated {close : TokenKind} {item : List α → Parser α}
    {form : List Terminal → α → Prop} {L : List γ → Prop} (hTail : ∀ c cs, L (c :: cs) → L cs)
    (hComma : close ≠ .comma) (hOpen : ∀ xs a, form xs a → ∀ next, (first xs next).kind ≠ close)
    (hItem : ∀ before xs a rest, form xs a → L (same a :: before.map same) →
      ((ahead rest).kind = .comma ∨ (ahead rest).kind = close) →
      Reads (item before) xs rest fun a' => same a' = same a)
    {as : List α} (h : Listed form xs as) (hAll : L (as.map same).reverse)
    (hClose : (ahead rest).kind = close) :
    Reads (commaSeparated close item) xs rest fun as' => as'.map same = as.map same := by
  cases h with
  | nil => exact reads_check_bind (reads_if (decide_eq_true hClose) (reads_pure rfl))
  | @cons xs ys a as hHead hRest =>
    have hFirst : ¬(decide ((ahead (xs ++ ys ++ rest)).kind = close) = true) := by
      rw [decide_eq_true_eq, List.append_assoc, ahead, Terminal.first_append]
      exact hOpen xs a hHead _
    refine reads_check_bind (reads_else hFirst ?_)
    rw [List.map_cons, List.reverse_cons] at hAll
    refine reads_bind (hItem [] xs a _ hHead (of_append_left hTail _ _ hAll)
      (ahead_afterCommas hRest hClose)) fun a' ha' => ?_
    -- what is left spells the items `cs`, and with them the list is still one that `L` allows
    refine reads_bind_pure (reads_chain (I := fun items zs => ∃ cs, AfterCommas form zs cs ∧
      L ((cs.map same).reverse ++ items.map same) ∧
      items.reverse.map same ++ cs.map same = (a :: as).map same) ?_
      ⟨as, hRest, by simpa [ha'] using hAll, by simp [ha']⟩)
    rintro items zs ⟨cs, hCs, hL, hSame⟩
    cases hCs with
    | nil =>
      refine .inl ⟨rfl, by simpa using hSame, ?_⟩
      refine reads_skip_bind ?_ (reads_pure rfl)
      rw [List.nil_append, hClose]
      exact hComma
    | @cons us vs c cs hNow hLater =>
      refine .inr ⟨[.mark .comma], us, vs, (), rfl, by simp, ?_, ?_⟩
      · exact reads_accept_bind (by decide) (reads_pure rfl)
      · have hNext : L (same c :: items.map same) := by
          rw [List.map_cons, List.reverse_cons, List.append_assoc] at hL
          exact of_append_left hTail _ _ hL
        refine reads_bind_pure (reads_mono (hItem items us c _ hNow hNext
          (ahead_afterCommas hLater hClose)) fun c' hc' => ⟨cs, hLater, ?_, ?_⟩)
        · simpa [hc'] using hL
        · simpa [hc'] using hSame

/-- Items in a row, which are told from what comes after them by their first terminal. -/
theorem reads_series (same : α → γ) {more : Parser (Option Unit)} {item : Parser α}
    {form : List Terminal → Terminal → α → Prop} {suitable : TokenKind → Bool}
    (hOpens : ∀ xs next a, form xs next a → Opens suitable xs)
    (hMore : ∀ ts, suitable (ahead ts).kind = true → Reads more [] ts fun b => b = some ())
    (hStop : Reads more [] rest fun b => b = none) (fits : TokenKind → Prop)
    (hItem : ∀ xs a rest, form xs (ahead rest) a →
      (suitable (ahead rest).kind = true ∨ fits (ahead rest).kind) →
      Reads item xs rest fun a' => same a' = same a)
    (hFits : fits (ahead rest).kind) {as : List α} (h : Series form xs (ahead rest) as) :
    Reads (chain more (fun items _ => do pure ((← item) :: items)) []) xs rest fun items =>
      items.reverse.map same = as.map same := by
  refine reads_chain (I := fun items zs => ∃ cs, Series form zs (ahead rest) cs ∧
    items.reverse.map same ++ cs.map same = as.map same) ?_ ⟨as, h, rfl⟩
  rintro items zs ⟨cs, hCs, hSame⟩
  cases hCs with
  | nil => exact .inl ⟨rfl, by simpa using hSame, hStop⟩
  | @cons us vs _ c cs hNow hLater =>
    have hFirst := hOpens _ _ _ hNow
    refine .inr ⟨[], us, vs, (), rfl, by simpa using hFirst.ne_nil, ?_, ?_⟩
    · exact hMore _ hFirst.append.first
    · rw [← Terminal.first_append] at hNow
      have hNext : suitable (ahead (vs ++ rest)).kind = true ∨ fits (ahead (vs ++ rest)).kind := by
        cases hLater with
        | nil => exact .inr hFits
        | cons hHead => exact .inl (hOpens _ _ _ hHead).append.append.first
      refine reads_bind_pure (reads_mono (hItem us c _ hNow hNext) fun c' hc' => ⟨cs, hLater, ?_⟩)
      simpa [hc'] using hSame

end

/-! ## Expressions -/

theorem opens_ne {suitable : TokenKind → Bool} (h : Opens suitable xs) {kind : TokenKind}
    (hKind : suitable kind = false) (next : Terminal) : (first xs next).kind ≠ kind := by
  intro hSame
  have hFirst : suitable (first xs next).kind = true := h.first
  rw [hSame, hKind] at hFirst
  cases hFirst

theorem reads_expressions (hInner : CompleteAt room) {close : TokenKind} (hComma : close ≠ .comma)
    (hOpen : opensExpression close = false) (hTier : tierOf close = 0) {es : List Expr}
    (h : Listed ((forms room).expression ctx) xs es) (hClose : (ahead rest).kind = close) :
    Reads (commaSeparated close fun _ => (level room).expression ctx) xs rest fun es' =>
      Expr.bareAll es' = Expr.bareAll es := by
  refine reads_mono (reads_commaSeparated (L := fun _ => True) (fun _ _ _ => trivial) hComma
    (fun xs e he next => opens_ne (forms_expression_opens xs e he) hOpen next)
    (fun _ xs e rest he _ hNext => hInner.expression he ?_) h trivial hClose) fun es' hSame => ?_
  · rcases hNext with hNext | hNext
    · rw [hNext]
      rfl
    · rw [hNext]
      exact hTier
  · rw [Expr.bareAll_eq, Expr.bareAll_eq]
    exact hSame

/-- A token by itself is an expression. -/
theorem reads_leaf {e : Expr} {t : Terminal} {u : Token} {make : Option Span → Expr}
    (hEnd : t.kind ≠ .endOfInput) (h : ∀ s, (make s).bare = e.bare) :
    Reads (do let _ ← advance; pure (make (← spanFrom u))) [t] rest fun e' => e'.bare = e.bare :=
  reads_advance_bind hEnd fun _ _ => reads_spanFrom_bind fun s => reads_pure (h s)

theorem reads_primary (hInner : CompleteAt room) {e : Expr}
    (h : Primary (forms room) ctx xs e) :
    Reads (primary (level room) ctx) xs rest fun e' => e'.bare = e.bare := by
  refine reads_peek_bind fun t ht => ?_
  have hKind : t.kind = (ahead (xs ++ rest)).kind := by rw [← ht, Token.kind_terminal]
  cases h with
  | number x s =>
    have hNumber : numberValue t = x := by
      rw [Token.terminal_number hKind] at ht
      exact Terminal.number.inj ht
    rw [hKind]
    exact reads_leaf nofun fun s' => by rw [hNumber]; rfl
  | string v s =>
    have hText : stringValue t = v := by
      rw [Token.terminal_string hKind] at ht
      exact Terminal.text.inj ht
    rw [hKind]
    exact reads_leaf nofun fun s' => by rw [hText]; rfl
  | boolean v s =>
    rw [hKind]
    cases v <;> exact reads_leaf nofun fun _ => rfl
  | null s =>
    rw [hKind]
    exact reads_leaf nofun fun _ => rfl
  | this s hEnclosed =>
    rw [hKind]
    refine reads_advance_bind nofun fun _ _ => reads_else hEnclosed ?_
    exact reads_spanFrom_bind fun _ => reads_pure rfl
  | super m s hDerived =>
    rw [hKind]
    refine reads_advance_bind nofun fun _ _ => ?_
    unfold superExpr
    rw [hDerived]
    refine reads_expect_bind (by decide) fun _ => reads_ident_bind fun m' hName => ?_
    refine reads_spanFrom_bind fun _ => reads_pure ?_
    simp only [Expr.bare, Ident.bare, hName]
  | name id =>
    have hName : t.lexeme = id.name := by
      rw [Token.terminal_name hKind] at ht
      exact Terminal.name.inj ht
    rw [hKind]
    exact reads_leaf nofun fun _ => by simp only [Expr.bare, Ident.bare, hName]
  | @grouped xs e hInside =>
    rw [hKind]
    refine reads_advance_bind nofun fun _ _ => ?_
    refine reads_bind (hInner.expression hInside rfl) fun e' he' => ?_
    exact reads_expect_bind (by decide) fun _ => reads_pure he'
  | @array xs es s hItems =>
    rw [hKind]
    refine reads_advance_bind nofun fun _ _ => ?_
    refine reads_bind (reads_expressions hInner (by decide) rfl rfl hItems rfl) fun es' hes' => ?_
    refine reads_expect_bind (by decide) fun _ => reads_spanFrom_bind fun _ => reads_pure ?_
    simp only [Expr.bare, hes']

/-- A start and rounds, each of which begins with a mark of the tier. -/
theorem reads_chained {β : Type} {start : Parser Expr} {wanted : TokenKind → Option β}
    {step : Expr → β → Parser Expr} {form : List Terminal → Expr → Prop}
    {round : Expr → List Terminal → Expr → Prop} {tier : Nat} (hTier : OfTier wanted tier)
    (hStart : ∀ xs e rest, form xs e → tierOf (ahead rest).kind < tier + 1 →
      Reads start xs rest fun e' => e'.bare = e.bare)
    (hMark : ∀ a xs b, round a xs b → ∃ kind op ys, xs = .mark kind :: ys ∧ wanted kind = some op)
    (hStep : ∀ a a' kind op ys b rest, a'.bare = a.bare → round a (.mark kind :: ys) b →
      wanted kind = some op → tierOf (ahead rest).kind < tier + 1 →
      Reads (step a' op) ys rest fun b' => b'.bare = b.bare)
    {e : Expr} (h : Chained form round xs e) (hRest : tierOf (ahead rest).kind < tier) :
    Reads (start >>= fun e => chain (acceptAs wanted) step e) xs rest
      fun e' => e'.bare = e.bare := by
  have hNext : ∀ {a b zs}, Rounds round a zs b → tierOf (ahead (zs ++ rest)).kind < tier + 1 := by
    intro a b zs hRounds
    cases hRounds with
    | done => exact Nat.lt_succ_of_lt hRest
    | more hNow _ =>
      obtain ⟨kind, op, ys, rfl, hOp⟩ := hMark _ _ _ hNow
      exact Nat.lt_succ_of_le (Nat.le_of_eq (hTier.tier_eq hOp))
  obtain ⟨us, vs, b, rfl, hFirst, hRounds⟩ := h
  -- the loop may hold another tree than the rounds began with, but only by its spans
  refine reads_bind (hStart us b _ hFirst (hNext hRounds)) fun b' hb' => ?_
  refine reads_chain (I := fun a' zs => ∃ a, a'.bare = a.bare ∧ Rounds round a zs e) ?_
    ⟨b, hb', hRounds⟩
  rintro a' zs ⟨a, ha, hZs⟩
  cases hZs with
  | done => exact .inl ⟨rfl, ha, reads_acceptAs_none (hTier.eq_none (Nat.ne_of_lt hRest))⟩
  | @more ws vs _ c _ hNow hLater =>
    obtain ⟨kind, op, ys, rfl, hOp⟩ := hMark _ _ _ hNow
    refine .inr ⟨[.mark kind], ys, vs, op, rfl, by simp, ?_, ?_⟩
    · exact reads_acceptAs (hTier.isMark hOp) hOp
    · exact reads_mono (hStep a a' kind op ys c _ ha hNow hOp (hNext hLater)) fun c' hc' =>
        ⟨c, hc', hLater⟩

theorem reads_suffixed (hInner : CompleteAt room) {start : Token} {a a' b : Expr}
    {kind : TokenKind} {suffix : Suffix} (ha : a'.bare = a.bare)
    (h : Suffixed (forms room) ctx a (.mark kind :: xs) b)
    (hSuffix : Suffix.ofKind kind = some suffix) :
    Reads (suffixed (level room) ctx start a' suffix) xs rest fun b' => b'.bare = b.bare := by
  cases h with
  | @call xs args s hItems =>
    cases hSuffix
    refine reads_bind (reads_expressions hInner (by decide) rfl rfl hItems rfl) fun es' hes' => ?_
    refine reads_expect_bind (by decide) fun _ => reads_spanFrom_bind fun _ => reads_pure ?_
    simp only [Expr.bare, ha, hes']
  | member m s =>
    cases hSuffix
    refine reads_ident_bind fun m' hName => reads_spanFrom_bind fun _ => reads_pure ?_
    simp only [Expr.bare, Ident.bare, ha, hName]
  | @index i xs s hInside =>
    cases hSuffix
    refine reads_bind (hInner.expression hInside rfl) fun i' hi' => ?_
    refine reads_expect_bind (by decide) fun _ => reads_spanFrom_bind fun _ => reads_pure ?_
    simp only [Expr.bare, ha, hi']

theorem reads_call (hInner : CompleteAt room) {e : Expr} (h : Called (forms room) ctx xs e)
    (hRest : tierOf (ahead rest).kind < 9) :
    Reads (call (level room) ctx) xs rest fun e' => e'.bare = e.bare := by
  refine reads_peek_bind fun start _ => ?_
  refine reads_chained ofTier_suffix (fun _ _ _ he _ => reads_primary hInner he)
    (fun a xs b hRound => ?_)
    (fun a a' kind op ys b rest ha hRound hOp _ => reads_suffixed hInner ha hRound hOp) h hRest
  cases hRound with
  | call => exact ⟨.leftParen, .call, _, rfl, rfl⟩
  | member => exact ⟨.dot, .member, _, rfl, rfl⟩
  | index => exact ⟨.leftBracket, .index, _, rfl, rfl⟩

/-- A primary expression does not begin like a prefix operator. -/
theorem Called.unaryOp_none {g : Forms} {e : Expr} (h : Called g ctx xs e) (next : Terminal) :
    unaryOp (first xs next).kind = none := by
  obtain ⟨ys, zs, b, rfl, hFirst, -⟩ := h
  rw [Terminal.first_append]
  cases hFirst with
  | boolean v => cases v <;> rfl
  | _ => rfl

theorem reads_unary (hInner : CompleteAt room) {e : Expr} (h : Form.Unary (forms room) ctx xs e)
    (hRest : tierOf (ahead rest).kind < 8) :
    Reads (unary (level room) ctx) xs rest fun e' => e'.bare = e.bare := by
  refine reads_peek_bind fun t ht => ?_
  have hKind : t.kind = (ahead (xs ++ rest)).kind := by rw [← ht, Token.kind_terminal]
  cases h with
  | @operator kind op xs e s hIsOp hOperand =>
    have hMark : kind ≠ .endOfInput := by
      rintro rfl
      cases hIsOp
    have hOp : unaryOp t.kind = some op := by
      rw [hKind]
      exact hIsOp
    rw [hOp]
    refine reads_advance_bind hMark fun _ _ => ?_
    refine reads_bind_last (hInner.operand hOperand hRest) fun e' he' => ?_
    refine reads_spanFrom_bind fun _ => reads_pure ?_
    simp only [Expr.bare, he']
  | call hCall =>
    rw [hKind, ahead, Terminal.first_append, Called.unaryOp_none hCall]
    exact reads_call hInner hCall (Nat.lt_succ_of_lt hRest)

theorem reads_leftAssoc {β : Type} {op : TokenKind → Option β}
    {join : β → Expr → Expr → Option Span → Expr} {operand : Parser Expr}
    {form : List Terminal → Expr → Prop} {tier : Nat} (hTier : OfTier op tier)
    (hJoin : ∀ b {l l' r r' : Expr} s s', l'.bare = l.bare → r'.bare = r.bare →
      (join b l' r' s').bare = (join b l r s).bare)
    (hOperand : ∀ xs e rest, form xs e → tierOf (ahead rest).kind < tier + 1 →
      Reads operand xs rest fun e' => e'.bare = e.bare)
    (xs : List Terminal) (e : Expr) (rest : List Terminal) (h : LeftAssoc op join form xs e)
    (hRest : tierOf (ahead rest).kind < tier) :
    Reads (leftAssoc op join operand) xs rest fun e' => e'.bare = e.bare := by
  refine reads_peek_bind fun start _ => ?_
  refine reads_chained hTier hOperand (fun a xs b hRound => ?_)
    (fun a a' kind b ys c rest ha hRound hOp hNext => ?_) h hRest
  · obtain ⟨s, hIsOp, -⟩ := hRound
    exact ⟨_, _, _, rfl, hIsOp⟩
  · obtain ⟨s, hIsOp, hRight⟩ := hRound
    obtain rfl := Option.some.inj (hIsOp.symm.trans hOp)
    refine reads_bind_last (hOperand _ _ _ hRight hNext) fun r' hr' => ?_
    exact reads_spanFrom_bind fun s' => reads_pure (hJoin _ s s' ha hr')

theorem bare_binary (op : BinaryOp) {l l' r r' : Expr} (s s' : Option Span)
    (hl : l'.bare = l.bare) (hr : r'.bare = r.bare) :
    (Expr.binary op l' r' s').bare = (Expr.binary op l r s).bare := by
  simp only [Expr.bare, hl, hr]

theorem bare_logical (op : LogicalOp) {l l' r r' : Expr} (s s' : Option Span)
    (hl : l'.bare = l.bare) (hr : r'.bare = r.bare) :
    (Expr.logical op l' r' s').bare = (Expr.logical op l r s).bare := by
  simp only [Expr.bare, hl, hr]

theorem reads_logicOr (hInner : CompleteAt room) {e : Expr} (h : LogicOr (forms room) ctx xs e)
    (hRest : tierOf (ahead rest).kind < 2) :
    Reads (logicOr (level room) ctx) xs rest fun e' => e'.bare = e.bare := by
  refine reads_leftAssoc ofTier_or bare_logical ?_ xs e rest h hRest
  refine reads_leftAssoc ofTier_and bare_logical ?_
  refine reads_leftAssoc ofTier_equality bare_binary ?_
  refine reads_leftAssoc ofTier_comparison bare_binary ?_
  refine reads_leftAssoc ofTier_term bare_binary ?_
  refine reads_leftAssoc ofTier_factor bare_binary ?_
  exact fun _ _ _ he hNext => reads_unary hInner he hNext

/-- Whether an expression can be assigned to does not depend on spans. -/
theorem exists_assignTo {target target' value value' e : Expr} {s : Option Span}
    (hTarget : target'.bare = target.bare) (hValue : value'.bare = value.bare)
    (h : assignTo? target value s = some e) (s' : Option Span) :
    ∃ e', assignTo? target' value' s' = some e' ∧ e'.bare = e.bare := by
  unfold assignTo? at h
  split at h
  · cases h
    cases target' <;> simp only [Expr.bare, Expr.name.injEq, reduceCtorEq] at hTarget
    exact ⟨_, rfl, by simp only [Expr.bare, hTarget, hValue]⟩
  · cases h
    cases target' <;> simp only [Expr.bare, Expr.member.injEq, reduceCtorEq] at hTarget
    exact ⟨_, rfl, by simp only [Expr.bare, hTarget, hValue]⟩
  · cases h
    cases target' <;> simp only [Expr.bare, Expr.index.injEq, reduceCtorEq] at hTarget
    exact ⟨_, rfl, by simp only [Expr.bare, hTarget, hValue]⟩
  · cases h

theorem reads_assignment (hInner : CompleteAt room) {e : Expr}
    (h : Expression (forms room) ctx xs e) (hRest : tierOf (ahead rest).kind = 0) :
    Reads (assignment (level room) ctx) xs rest fun e' => e'.bare = e.bare := by
  refine reads_peek_bind fun start _ => ?_
  cases h with
  | value hValue =>
    refine reads_bind_last (reads_logicOr hInner hValue (by omega)) fun e' he' => ?_
    refine reads_check_bind (reads_else ?_ (reads_pure he'))
    rw [decide_eq_true_eq, List.nil_append]
    intro hEqual
    rw [hEqual] at hRest
    cases hRest
  | assign s hTarget hValue hAssigns =>
    refine reads_bind (reads_logicOr hInner hTarget (Nat.lt_succ_self 1)) fun target' ht' => ?_
    refine reads_check_bind (reads_if (decide_eq_true rfl) ?_)
    refine reads_advance_bind nofun fun equals _ => ?_
    refine reads_bind_last (hInner.expression hValue hRest) fun value' hv' => ?_
    refine reads_spanFrom_bind fun s' => ?_
    obtain ⟨e', hAssigns', he'⟩ := exists_assignTo ht' hv' hAssigns s'
    rw [hAssigns']
    exact reads_pure he'

/-! ## Statements -/

theorem reads_terminated {α : Type} {a : α} (h : Terminated xs (ahead rest)) :
    Reads (terminated a) xs rest fun b => b = a := by
  cases h with
  | semicolon => exact reads_accept_bind (by decide) (reads_if rfl (reads_pure rfl))
  | omitted hCloses =>
    have hOther : (ahead ([] ++ rest)).kind ≠ .semicolon := by
      intro hKind
      rw [List.nil_append] at hKind
      rcases hCloses with hClose | hClose
      · rw [hClose] at hKind
        cases hKind
      · rw [hClose] at hKind
        cases hKind
    refine reads_skip_bind hOther (reads_else Bool.false_ne_true ?_)
    exact reads_atClose_bind (reads_if (decide_eq_true hCloses) (reads_pure rfl))

theorem reads_untilClose {α γ : Type} (same : α → γ) {item : Parser α}
    {form : List Terminal → Terminal → α → Prop} {suitable : TokenKind → Bool}
    (hOpens : ∀ xs next a, form xs next a → Opens suitable xs)
    (hBrace : suitable .rightBrace = false) (hEnd : suitable .endOfInput = false)
    (hItem : ∀ xs a rest, form xs (ahead rest) a →
      (suitable (ahead rest).kind = true ∨ (ahead rest).kind = .rightBrace) →
      Reads item xs rest fun a' => same a' = same a)
    {as : List α} (h : Series form xs (.mark .rightBrace) as) :
    Reads (untilClose item) xs (.mark .rightBrace :: rest) fun as' =>
      as'.map same = as.map same := by
  refine reads_bind_pure (reads_series same hOpens (fun ts hSuitable => ?_) ?_
    (fun kind => kind = .rightBrace) hItem rfl h)
  · refine reads_atClose_bind (reads_else ?_ (reads_pure rfl))
    rw [decide_eq_true_eq, List.nil_append]
    rintro (hKind | hKind)
    · rw [hKind, hBrace] at hSuitable
      cases hSuitable
    · rw [hKind, hEnd] at hSuitable
      cases hSuitable
  · exact reads_atClose_bind (reads_if (decide_eq_true (.inl rfl)) (reads_pure rfl))

theorem reads_block (hInner : CompleteAt room) {what : String} {b : Block}
    (h : Braced (forms room) ctx xs b) :
    Reads (block (level room) ctx what) xs rest fun b' => b'.bare = b.bare := by
  obtain @⟨xs, body, s, hBody⟩ := h
  refine reads_expect_bind (by decide) fun _ => ?_
  refine reads_bind (reads_untilClose Stmt.bare (fun _ _ _ => forms_declaration_opens) rfl rfl
    (fun xs a rest ha hNext => ?_) hBody) fun body' hBody' => ?_
  · exact hInner.declaration ha (hNext.imp_right .inl)
  · refine reads_expect_bind (by decide) fun _ => reads_spanFrom_bind fun _ => reads_pure ?_
    simp only [Block.bare, Stmt.bareAll_eq, hBody']

theorem reads_parenthesized (hInner : CompleteAt room) {keyword : String} {e : Expr}
    (h : Condition (forms room) ctx xs e) :
    Reads (parenthesized (level room) ctx keyword) xs rest fun e' => e'.bare = e.bare := by
  obtain ⟨hInside⟩ := h
  refine reads_expect_bind (by decide) fun _ => ?_
  refine reads_bind (hInner.expression hInside rfl) fun e' he' => ?_
  exact reads_expect_bind (by decide) fun _ => reads_pure he'

/-! ### Definitions -/

theorem bare_of_name {id id' : Ident} (h : id'.name = id.name) : id'.bare = id.bare := by
  simp only [Ident.bare, h]

theorem map_bare_of_names {ids ids' : List Ident}
    (h : ids'.map (·.name) = ids.map (·.name)) : ids'.map Ident.bare = ids.map Ident.bare := by
  have hBare : ∀ ids : List Ident, ids.map Ident.bare = (ids.map (·.name)).map (⟨·, none⟩) := by
    intro ids
    simp [Ident.bare]
  rw [hBare, hBare, h]

theorem reads_param {before : List Ident} {id : Ident}
    (hFresh : (id.name :: before.map (·.name)).Nodup) (h : Parameter xs id) :
    Reads (param before) xs rest fun id' => id'.name = id.name := by
  obtain ⟨⟩ := h
  refine reads_ident_bind fun id' hName => reads_else ?_ (reads_pure hName)
  rw [List.any_eq_true]
  rintro ⟨other, hOther, hSame⟩
  refine (List.nodup_cons.mp hFresh).1 (List.mem_map.mpr ⟨other, hOther, ?_⟩)
  rw [← hName]
  simpa using hSame

theorem reads_params {params : List Ident} (h : Listed Parameter xs params)
    (hFresh : (params.map (·.name)).Nodup) :
    Reads (commaSeparated .rightParen param) xs (.mark .rightParen :: rest) fun params' =>
      params'.map (·.name) = params.map (·.name) := by
  refine reads_commaSeparated (L := List.Nodup) (fun _ _ hAll => (List.nodup_cons.mp hAll).2)
    (by decide) (fun xs id hId next => ?_)
    (fun before xs id rest hId hNodup _ => reads_param hNodup hId) h ?_ rfl
  · obtain ⟨⟩ := hId
    nofun
  · exact (List.reverse_perm _).nodup_iff.mpr hFresh

theorem reads_funcDef (hInner : CompleteAt room) {what : String} {f : FuncDef}
    (h : Function (forms room) ctx xs f) :
    Reads (funcDef (level room) ctx what) xs rest fun f' => f'.bare = f.bare := by
  obtain ⟨id, s, hParams, hFresh, hBody⟩ := h
  refine reads_advance_bind nofun fun _ _ => reads_ident_bind fun id' hName => ?_
  refine reads_expect_bind (by decide) fun _ => ?_
  refine reads_bind (reads_params hParams hFresh) fun params' hParams' => ?_
  refine reads_expect_bind (by decide) fun _ => ?_
  refine reads_bind_last (reads_block hInner hBody) fun body' hBody' => ?_
  refine reads_spanFrom_bind fun _ => reads_pure ?_
  simp only [FuncDef.bare, bare_of_name hName, map_bare_of_names hParams', hBody']

theorem reads_superclass {id id' : Ident} {parent : Option Ident} (hName : id'.name = id.name)
    (h : Superclass id xs parent) (hRest : (ahead rest).kind = .leftBrace) :
    Reads (superclass id') xs rest fun parent' => parent'.map (·.name) = parent.map (·.name) := by
  cases h with
  | none =>
    refine reads_skip_bind ?_ (reads_pure rfl)
    rw [List.nil_append, hRest]
    nofun
  | some parent hOther =>
    refine reads_accept_bind (by decide) ?_
    refine reads_ident_bind fun parent' hParent => reads_else ?_ (reads_pure ?_)
    · rw [hParent, hName]
      exact hOther
    · simp [hParent]

theorem Series.with_next {α : Type} {form : List Terminal → α → Prop} {next next' : Terminal}
    {as : List α} (h : Series (fun ys _ => form ys) xs next as) :
    Series (fun ys _ => form ys) xs next' as := by
  induction h with
  | nil => exact .nil
  | cons hHead _ ih => exact .cons hHead ih

theorem Function.opens {g : Forms} {f : FuncDef} (h : Function g ctx xs f) :
    Opens (fun kind => kind == .kwFunc) xs := by
  obtain ⟨⟩ := h
  exact ⟨_, _, rfl, rfl⟩

theorem reads_method (hInner : CompleteAt room) {f : FuncDef}
    (h : Function (forms room) ctx xs f) :
    Reads (method (level room) ctx) xs rest fun f' => f'.bare = f.bare := by
  refine reads_peek_bind fun t ht => reads_if ?_ (reads_funcDef hInner h)
  have hFirst : ((ahead (xs ++ rest)).kind == .kwFunc) = true := (Function.opens h).append.first
  rw [← Token.kind_terminal, ht]
  exact eq_of_beq hFirst

theorem reads_classDef (hInner : CompleteAt room) {c : ClassDef}
    (h : Class (forms room) ctx xs c) :
    Reads (classDef (level room) ctx) xs rest fun c' =>
      (Stmt.cls c').bare = (Stmt.cls c).bare := by
  obtain @⟨xs, ys, parent, methods, next, id, s, hParent, hMethods⟩ := h
  refine reads_advance_bind nofun fun _ _ => reads_ident_bind fun id' hName => ?_
  refine reads_bind (reads_superclass hName hParent rfl) fun parent' hParent' => ?_
  refine reads_expect_bind (by decide) fun _ => ?_
  have hSome : parent'.isSome = parent.isSome := by
    rw [← Option.isSome_map, hParent', Option.isSome_map]
  rw [hSome]
  refine reads_bind (reads_untilClose FuncDef.bare (fun _ _ _ hf => Function.opens hf) rfl rfl
    (fun _ _ _ hf _ => reads_method hInner hf) (Series.with_next hMethods)) fun fs' hFs' => ?_
  refine reads_expect_bind (by decide) fun _ => reads_spanFrom_bind fun _ => reads_pure ?_
  have hParents : parent'.map Ident.bare = parent.map Ident.bare := by
    have hBare : ∀ p : Option Ident, p.map Ident.bare = (p.map (·.name)).map (⟨·, none⟩) := by
      intro p
      cases p <;> rfl
    rw [hBare, hBare, hParent']
  simp only [Stmt.bare, bare_of_name hName, hParents, FuncDef.bareAll_eq, hFs']

/-! ### Simple statements -/

theorem tier_of_terminated (h : Terminated xs (ahead rest)) :
    tierOf (ahead (xs ++ rest)).kind = 0 := by
  cases h with
  | semicolon => rfl
  | omitted hCloses =>
    rw [List.nil_append]
    rcases hCloses with hKind | hKind
    · rw [hKind]
      rfl
    · rw [hKind]
      rfl

theorem ne_of_tier {kind kind' : TokenKind} (h : tierOf kind = 0) (h' : tierOf kind' ≠ 0) :
    kind ≠ kind' := by
  rintro rfl
  exact h' h

theorem reads_declare {id : Ident} {s : Option Span} (hRest : tierOf (ahead rest).kind = 0) :
    Reads (varDecl (level room) ctx) [.mark .kwVar, .name id.name] rest fun t =>
      t.bare = (Simple.var id none s).bare := by
  refine reads_advance_bind nofun fun _ _ => reads_ident_bind fun id' hName => ?_
  refine reads_skip_bind (ne_of_tier hRest (by decide)) ?_
  refine reads_spanFrom_bind fun _ => reads_pure ?_
  simp only [Simple.bare, bare_of_name hName, Option.map_none]

theorem reads_var (hInner : CompleteAt room) {id : Ident} {v : Expr} {s : Option Span}
    (h : (forms room).expression ctx xs v) (hRest : tierOf (ahead rest).kind = 0) :
    Reads (varDecl (level room) ctx) (.mark .kwVar :: .name id.name :: .mark .equal :: xs) rest
      fun t => t.bare = (Simple.var id (some v) s).bare := by
  refine reads_advance_bind nofun fun _ _ => reads_ident_bind fun id' hName => ?_
  refine reads_accept_bind (by decide) ?_
  refine reads_bind_last (Q := fun v' => v'.map Expr.bare = some v.bare)
    (reads_map (reads_mono (hInner.expression h hRest) fun v' hv' => ?_)) fun v' hv' => ?_
  · rw [Option.map_some, hv']
  · refine reads_spanFrom_bind fun _ => reads_pure ?_
    simp only [Simple.bare, bare_of_name hName, hv', Option.map_some]

theorem reads_const (hInner : CompleteAt room) {id : Ident} {v : Expr} {s : Option Span}
    (h : (forms room).expression ctx xs v) (hRest : tierOf (ahead rest).kind = 0) :
    Reads (constDecl (level room) ctx) (.mark .kwConst :: .name id.name :: .mark .equal :: xs) rest
      fun t => t.bare = (Simple.const id v s).bare := by
  refine reads_advance_bind nofun fun _ _ => reads_ident_bind fun id' hName => ?_
  refine reads_expect_bind (by decide) fun _ => ?_
  refine reads_bind_last (hInner.expression h hRest) fun v' hv' => ?_
  refine reads_spanFrom_bind fun _ => reads_pure ?_
  simp only [Simple.bare, bare_of_name hName, hv']

theorem reads_exprStmt (hInner : CompleteAt room) {e : Expr} {s : Option Span}
    (h : (forms room).expression ctx xs e) (hRest : tierOf (ahead rest).kind = 0) :
    Reads (exprStmt (level room) ctx) xs rest fun t => t.bare = (Simple.expr e s).bare := by
  refine reads_peek_bind fun _ _ => ?_
  refine reads_bind_last (hInner.expression h hRest) fun e' he' => ?_
  refine reads_spanFrom_bind fun _ => reads_pure ?_
  simp only [Simple.bare, he']

/-- A simple statement and its terminator. -/
theorem reads_simple {p : Parser Simple} {ys : List Terminal} {s : Simple}
    (hp : tierOf (ahead (ys ++ rest)).kind = 0 → Reads p xs (ys ++ rest) fun t => t.bare = s.bare)
    (hEnds : Terminated ys (ahead rest)) :
    Reads (p >>= fun t => terminated (Stmt.simple t)) (xs ++ ys) rest fun t =>
      t.bare = (Stmt.simple s).bare := by
  refine reads_bind (hp (tier_of_terminated hEnds)) fun t ht => ?_
  refine reads_mono (reads_terminated hEnds) fun t' ht' => ?_
  rw [ht', Stmt.bare, Stmt.bare, ht]

/-! ### Control flow -/

theorem Arm.opens {g : Forms} {c : ElifClause} (h : Arm g ctx xs c) :
    Opens (fun kind => kind == .kwElif) xs := by
  obtain ⟨⟩ := h
  exact ⟨_, _, rfl, rfl⟩

theorem reads_elifClause (hInner : CompleteAt room) {c : ElifClause}
    (h : Arm (forms room) ctx xs c) :
    Reads (elifClause (level room) ctx) xs rest fun c' => c'.bare = c.bare := by
  obtain ⟨s, hCondition, hBody⟩ := h
  refine reads_advance_bind nofun fun _ _ => ?_
  refine reads_bind (reads_parenthesized hInner hCondition) fun c' hc' => ?_
  refine reads_bind_last (reads_block hInner hBody) fun b' hb' => ?_
  refine reads_spanFrom_bind fun _ => reads_pure ?_
  simp only [ElifClause.bare, hc', hb']

theorem reads_elifClauses (hInner : CompleteAt room) {cs : List ElifClause} {next : Terminal}
    (h : Series (fun ys _ => Arm (forms room) ctx ys) xs next cs)
    (hRest : (ahead rest).kind ≠ .kwElif) :
    Reads (elifClauses (level room) ctx) xs rest fun cs' =>
      cs'.map ElifClause.bare = cs.map ElifClause.bare := by
  refine reads_bind_pure (reads_series ElifClause.bare (fun _ _ _ hc => Arm.opens hc)
    (fun ts hSuitable => ?_) ?_ (fun _ => True) (fun _ _ _ hc _ => reads_elifClause hInner hc)
    trivial (Series.with_next h))
  · exact reads_check_bind (reads_if (decide_eq_true (eq_of_beq hSuitable)) (reads_pure rfl))
  · refine reads_check_bind (reads_else ?_ (reads_pure rfl))
    rw [decide_eq_true_eq]
    exact hRest

/-- The terminals after an `if` do not belong to it. -/
theorem Follows.ne {kind kind' : TokenKind} (h : Follows kind)
    (hKind : opensStatement kind' = false ∧ kind' ≠ .rightBrace ∧ kind' ≠ .endOfInput) :
    kind ≠ kind' := by
  rintro rfl
  rcases h with h | h | h
  · rw [hKind.1] at h
    cases h
  · exact hKind.2.1 h
  · exact hKind.2.2 h

theorem reads_ifStmt (hInner : CompleteAt room) {ws ys zs : List Terminal} {after : Terminal}
    {c : Expr} {body : Block} {elifs : List ElifClause} {e : Option Block} {s : Option Span}
    (hCondition : Condition (forms room) ctx ws c) (hBody : Braced (forms room) ctx xs body)
    (hElifs : Series (fun vs _ => Arm (forms room) ctx vs) ys after elifs)
    (hOtherwise : Optional (ElseArm (forms room) ctx) zs e) (hRest : Follows (ahead rest).kind) :
    Reads (ifStmt (level room) ctx) (.mark .kwIf :: (ws ++ (xs ++ (ys ++ zs)))) rest fun t =>
      t.bare = (Stmt.ifElse c body elifs e s).bare := by
  refine reads_advance_bind nofun fun _ _ => ?_
  refine reads_bind (reads_parenthesized hInner hCondition) fun c' hc' => ?_
  refine reads_bind (reads_block hInner hBody) fun b' hb' => ?_
  have hNoElif : (ahead (zs ++ rest)).kind ≠ .kwElif := by
    cases hOtherwise with
    | none => exact hRest.ne (by decide)
    | some hForm =>
      obtain ⟨⟩ := hForm
      nofun
  refine reads_bind (reads_elifClauses hInner hElifs hNoElif) fun cs' hcs' => ?_
  cases hOtherwise with
  | none =>
    refine reads_skip_bind (hRest.ne (by decide)) ?_
    refine reads_spanFrom_bind fun _ => reads_pure ?_
    simp only [Stmt.bare, hc', hb', ElifClause.bareAll_eq, hcs', Block.bareOption]
  | @some zs b hForm =>
    obtain ⟨hBlock⟩ := hForm
    refine reads_accept_bind (by decide) ?_
    refine reads_bind_last (Q := fun e' => Block.bareOption e' = Block.bareOption (some b))
      (reads_map (reads_mono (reads_block hInner hBlock) fun e' he' => ?_)) fun e' he' => ?_
    · simp only [Block.bareOption, he']
    · refine reads_spanFrom_bind fun _ => reads_pure ?_
      simp only [Stmt.bare, hc', hb', ElifClause.bareAll_eq, hcs', he']

theorem reads_whileStmt (hInner : CompleteAt room) {ys : List Terminal} {c : Expr} {body : Block}
    {s : Option Span} (hCondition : Condition (forms room) ctx xs c)
    (hBody : Braced (forms room) ctx.loop ys body) :
    Reads (whileStmt (level room) ctx) (.mark .kwWhile :: (xs ++ ys)) rest fun t =>
      t.bare = (Stmt.whileLoop c body s).bare := by
  refine reads_advance_bind nofun fun _ _ => ?_
  refine reads_bind (reads_parenthesized hInner hCondition) fun c' hc' => ?_
  refine reads_bind_last (reads_block hInner hBody) fun b' hb' => ?_
  refine reads_spanFrom_bind fun _ => reads_pure ?_
  simp only [Stmt.bare, hc', hb']

theorem reads_optionalBefore (hInner : CompleteAt room) {close : TokenKind} {e : Option Expr}
    (h : Optional ((forms room).expression ctx) xs e) (hRest : (ahead rest).kind = close)
    (hTier : tierOf close = 0) (hOpen : opensExpression close = false) :
    Reads (optionalBefore (level room) ctx close) xs rest fun e' =>
      e'.map Expr.bare = e.map Expr.bare := by
  cases h with
  | none => exact reads_check_bind (reads_if (decide_eq_true hRest) (reads_pure rfl))
  | some hForm =>
    refine reads_check_bind (reads_else ?_ ?_)
    · rw [decide_eq_true_eq, ahead, Terminal.first_append]
      exact opens_ne (forms_expression_opens _ _ hForm) hOpen _
    · refine reads_map (reads_mono (hInner.expression hForm (hRest ▸ hTier)) fun e' he' => ?_)
      simp only [Option.map_some, he']

theorem reads_forStart (hInner : CompleteAt room) {i : Option Simple}
    (h : Optional (Plain (forms room) ctx) xs i) :
    Reads (forStart (level room) ctx) xs (.mark .semicolon :: rest) fun i' =>
      i'.map Simple.bare = i.map Simple.bare := by
  refine reads_peek_bind fun t ht => ?_
  have hKind : t.kind = (ahead (xs ++ .mark .semicolon :: rest)).kind := by
    rw [← ht, Token.kind_terminal]
  rw [hKind]
  have hSome : ∀ {s s' : Simple}, s'.bare = s.bare →
      (some s').map Simple.bare = (some s).map Simple.bare := by
    intro s s' hSame
    simp only [Option.map_some, hSame]
  cases h with
  | none => exact reads_pure rfl
  | some hForm =>
    cases hForm with
    | declare id s => exact reads_map (reads_mono (reads_declare rfl) fun _ => hSome)
    | var id s hValue => exact reads_map (reads_mono (reads_var hInner hValue rfl) fun _ => hSome)
    | const id s hValue =>
      exact reads_map (reads_mono (reads_const hInner hValue rfl) fun _ => hSome)
    | expr s hValue =>
      have hOpens : opensExpression (ahead (xs ++ .mark .semicolon :: rest)).kind = true :=
        (forms_expression_opens _ _ hValue).append.first
      have hExpr : Reads (some <$> exprStmt (level room) ctx) xs (.mark .semicolon :: rest)
          fun i' => i'.map Simple.bare = (some (Simple.expr _ s)).map Simple.bare :=
        reads_map (reads_mono (reads_exprStmt hInner hValue rfl) fun _ => hSome)
      generalize (ahead (xs ++ .mark .semicolon :: rest)).kind = kind at hOpens ⊢
      cases kind <;> first | exact hExpr | cases hOpens

theorem reads_forStmt (hInner : CompleteAt room) {ws ys zs : List Terminal} {i : Option Simple}
    {c u : Option Expr} {body : Block} {s : Option Span}
    (hStart : Optional (Plain (forms room) ctx) ws i)
    (hCondition : Optional ((forms room).expression ctx) xs c)
    (hUpdate : Optional ((forms room).expression ctx) ys u)
    (hBody : Braced (forms room) ctx.loop zs body) :
    Reads (forStmt (level room) ctx)
      (.mark .kwFor :: .mark .leftParen ::
        (ws ++ .mark .semicolon :: (xs ++ .mark .semicolon :: (ys ++ .mark .rightParen :: zs))))
      rest fun t => t.bare = (Stmt.forLoop i c u body s).bare := by
  refine reads_advance_bind nofun fun _ _ => reads_expect_bind (by decide) fun _ => ?_
  refine reads_bind (reads_forStart hInner hStart) fun i' hi' => ?_
  refine reads_expect_bind (by decide) fun _ => ?_
  refine reads_bind (reads_optionalBefore hInner hCondition rfl rfl rfl) fun c' hc' => ?_
  refine reads_expect_bind (by decide) fun _ => ?_
  refine reads_bind (reads_optionalBefore hInner hUpdate rfl rfl rfl) fun u' hu' => ?_
  refine reads_expect_bind (by decide) fun _ => ?_
  refine reads_bind_last (reads_block hInner hBody) fun b' hb' => ?_
  refine reads_spanFrom_bind fun _ => reads_pure ?_
  simp only [Stmt.bare, hi', hc', hu', hb']

/-- A word, and the end of the statement. -/
theorem reads_word {e : Stmt} {make : Option Span → Stmt} {start : Token}
    (hBare : ∀ s, (make s).bare = e.bare) (hEnds : Terminated xs (ahead rest)) :
    Reads (do terminated (make (← spanFrom start))) xs rest fun t => t.bare = e.bare := by
  refine reads_spanFrom_bind fun s => ?_
  refine reads_mono (reads_terminated hEnds) fun t ht => ?_
  rw [ht, hBare]

theorem reads_returnValue (hInner : CompleteAt room) {e : Option Expr} {ys : List Terminal}
    (h : Optional ((forms room).expression ctx) xs e) (hEnds : Terminated ys (ahead rest)) :
    Reads (returnValue (level room) ctx) xs (ys ++ rest) fun e' =>
      e'.map Expr.bare = e.map Expr.bare := by
  cases h with
  | none =>
    cases hEnds with
    | semicolon => exact reads_check_bind (reads_if (decide_eq_true rfl) (reads_pure rfl))
    | omitted hCloses =>
      have hNext : ¬(decide ((ahead ([] ++ ([] ++ rest))).kind = .semicolon) = true) := by
        rw [decide_eq_true_eq, List.nil_append, List.nil_append]
        rcases hCloses with hKind | hKind <;> rw [hKind] <;> nofun
      refine reads_check_bind (reads_else hNext ?_)
      exact reads_atClose_bind (reads_if (decide_eq_true hCloses) (reads_pure rfl))
  | some hForm =>
    have hOpens := forms_expression_opens _ _ hForm
    have hNot : ∀ kind, opensExpression kind = false →
        (ahead (xs ++ (ys ++ rest))).kind ≠ kind := by
      intro kind hKind
      rw [ahead, Terminal.first_append]
      exact opens_ne hOpens hKind _
    refine reads_check_bind (reads_else ?_ ?_)
    · rw [decide_eq_true_eq]
      exact hNot _ rfl
    refine reads_atClose_bind (reads_else ?_ ?_)
    · rw [decide_eq_true_eq]
      exact fun hKind => hKind.elim (hNot _ rfl) (hNot _ rfl)
    refine reads_map (reads_mono (hInner.expression hForm (tier_of_terminated hEnds))
      fun e' he' => ?_)
    simp only [Option.map_some, he']

theorem reads_returnStmt (hInner : CompleteAt room) {e : Option Expr} {ys : List Terminal}
    {s : Option Span} (hInFunction : ctx.inFunction = true)
    (hValue : Optional ((forms room).expression ctx) xs e) (hEnds : Terminated ys (ahead rest)) :
    Reads (returnStmt (level room) ctx) (.mark .kwReturn :: (xs ++ ys)) rest fun t =>
      t.bare = (Stmt.ret e s).bare := by
  refine reads_advance_bind nofun fun _ _ => reads_if hInFunction ?_
  refine reads_bind (reads_returnValue hInner hValue hEnds) fun e' he' => ?_
  exact reads_word (fun _ => by simp only [Stmt.bare, he']) hEnds

theorem reads_tryStmt (hInner : CompleteAt room) {ys : List Terminal} {body handler : Block}
    {param : Ident} {s : Option Span} (hBody : Braced (forms room) ctx xs body)
    (hHandler : Braced (forms room) ctx ys handler) :
    Reads (tryStmt (level room) ctx)
      (.mark .kwTry ::
        (xs ++ .mark .kwCatch :: .mark .leftParen :: .name param.name :: .mark .rightParen :: ys))
      rest fun t => t.bare = (Stmt.tryCatch body param handler s).bare := by
  refine reads_advance_bind nofun fun _ _ => ?_
  refine reads_bind (reads_block hInner hBody) fun b' hb' => ?_
  refine reads_expect_bind (by decide) fun _ => reads_expect_bind (by decide) fun _ => ?_
  refine reads_ident_bind fun param' hName => reads_expect_bind (by decide) fun _ => ?_
  refine reads_bind_last (reads_block hInner hHandler) fun h' hh' => ?_
  refine reads_spanFrom_bind fun _ => reads_pure ?_
  simp only [Stmt.bare, hb', bare_of_name hName, hh']

theorem reads_throwStmt (hInner : CompleteAt room) {e : Expr} {ys : List Terminal}
    {s : Option Span} (hValue : (forms room).expression ctx xs e)
    (hEnds : Terminated ys (ahead rest)) :
    Reads (throwStmt (level room) ctx) (.mark .kwThrow :: (xs ++ ys)) rest fun t =>
      t.bare = (Stmt.throw e s).bare := by
  refine reads_advance_bind nofun fun _ _ => ?_
  refine reads_bind (hInner.expression hValue (tier_of_terminated hEnds)) fun e' he' => ?_
  exact reads_word (fun _ => by simp only [Stmt.bare, he']) hEnds

theorem reads_declaration (hInner : CompleteAt room) {s : Stmt}
    (h : Statement (forms room) ctx xs (ahead rest) s) (hRest : Follows (ahead rest).kind) :
    Reads (declaration (level room) ctx) xs rest fun s' => s'.bare = s.bare := by
  refine reads_peek_bind fun t ht => ?_
  have hKind : t.kind = (ahead (xs ++ rest)).kind := by rw [← ht, Token.kind_terminal]
  rw [hKind]
  cases h with
  | @simple xs ys _ s hPlain hEnds =>
    cases hPlain with
    | declare id s => exact reads_simple reads_declare hEnds
    | var id s hValue => exact reads_simple (reads_var hInner hValue) hEnds
    | const id s hValue => exact reads_simple (reads_const hInner hValue) hEnds
    | expr s hValue =>
      have hOpens : opensExpression (ahead (xs ++ ys ++ rest)).kind = true :=
        (forms_expression_opens _ _ hValue).append.append.first
      -- no keyword of a statement opens an expression, so the last branch is taken
      have hExpr := reads_simple (s := .expr _ s) (reads_exprStmt hInner hValue) hEnds
      generalize (ahead (xs ++ ys ++ rest)).kind = kind at hOpens ⊢
      cases kind <;> first | exact hExpr | cases hOpens
  | @func _ _ f hFunc =>
    have hFirst : ((ahead (xs ++ rest)).kind == .kwFunc) = true :=
      (Function.opens hFunc).append.first
    rw [eq_of_beq hFirst]
    refine reads_map (reads_mono (reads_funcDef hInner hFunc) fun f' hf' => ?_)
    simp only [Stmt.bare, hf']
  | cls hCls =>
    have hFirst : (ahead (xs ++ rest)).kind = .kwClass := by
      obtain ⟨⟩ := hCls
      rfl
    rw [hFirst]
    exact reads_map (reads_classDef hInner hCls)
  | block hBraced =>
    have hFirst : (ahead (xs ++ rest)).kind = .leftBrace := by
      obtain ⟨⟩ := hBraced
      rfl
    rw [hFirst]
    refine reads_map (reads_mono (reads_block hInner hBraced) fun b' hb' => ?_)
    simp only [Stmt.bare, hb']
  | ifElse s hCondition hBody hElifs hOtherwise =>
    exact reads_ifStmt hInner hCondition hBody hElifs hOtherwise hRest
  | whileLoop s hCondition hBody => exact reads_whileStmt hInner hCondition hBody
  | forLoop s hStart hCondition hUpdate hBody =>
    exact reads_forStmt hInner hStart hCondition hUpdate hBody
  | breakLoop s hInLoop hEnds =>
    exact reads_advance_bind nofun fun _ _ => reads_if hInLoop (reads_word (fun _ => rfl) hEnds)
  | continueLoop s hInLoop hEnds =>
    exact reads_advance_bind nofun fun _ _ => reads_if hInLoop (reads_word (fun _ => rfl) hEnds)
  | ret s hInFunction hValue hEnds => exact reads_returnStmt hInner hInFunction hValue hEnds
  | tryCatch param s hBody hHandler => exact reads_tryStmt hInner hBody hHandler
  | throw s hValue hEnds => exact reads_throwStmt hInner hValue hEnds

/-! ## Levels and programs -/

theorem completeAt (room : Nat) : CompleteAt room := by
  induction room with
  | zero => exact ⟨nofun, nofun, nofun⟩
  | succ room ih =>
    exact ⟨reads_assignment ih, reads_unary ih, reads_declaration ih⟩

theorem reads_program {p : Program} (h : Whole xs p) :
    Reads program xs [] fun q => q.bare = p.bare := by
  refine reads_peek_bind fun start _ => ?_
  refine reads_bind_last (reads_series Stmt.bare
    (fun _ _ _ hs => forms_declaration_opens hs) (fun ts hSuitable => ?_) ?_
    (fun kind => kind = .endOfInput) (fun xs s rest hs hNext => ?_) rfl h) fun body hBody => ?_
  · refine reads_check_bind (reads_else ?_ (reads_pure rfl))
    rw [decide_eq_true_eq, List.nil_append]
    intro hEnd
    rw [hEnd] at hSuitable
    cases hSuitable
  · exact reads_check_bind (reads_if (decide_eq_true rfl) (reads_pure rfl))
  · exact (completeAt maxNesting).declaration hs (hNext.imp_right .inr)
  · refine reads_look reads_peek fun finish _ => reads_pure ?_
    simp only [Program.bare, hBody]

end Grammar

/-- A program is parsed from every stream whose terminals spell it. -/
theorem Program.of_whole {stream : TokenStream} {p : Program} (hFailure : stream.failure = none)
    (h : Form.Whole stream.terminals p) : ∃ q, ofStream? stream = .ok q ∧ q.bare = p.bare := by
  have hAhead : (Input.ofStream stream).Ahead (stream.terminals ++ []) := by
    rw [List.append_nil]
    exact ⟨rfl, hFailure, Token.length_terminals_le stream.tokens⟩
  obtain ⟨q, s, hRun, -, hSame⟩ := Grammar.reads_program h _ hAhead
  refine ⟨q, ?_, hSame⟩
  change (Grammar.program (Input.ofStream stream) >>= fun q => pure q.1) = _
  rw [hRun]
  rfl

/-- A tree that is written down is read back, up to spans, with the parentheses that it needs and
with any more that there is room for. -/
theorem Program.parse_phrase {p : Program} {extra : List Nat → Nat} {stream : TokenStream}
    (hLawful : Node.Lawful .top (.program p))
    (hRoom : (p.phrase (.needed extra)).depth ≤ maxNesting)
    (hTerminals : stream.terminals = (p.phrase (.needed extra)).terminals)
    (hFailure : stream.failure = none) : ∃ q, ofStream? stream = .ok q ∧ q.bare = p.bare := by
  refine of_whole hFailure ?_
  rw [hTerminals]
  exact p.whole_of_phrase extra hLawful hRoom

/-- A sum in a product, with the one pair of parentheses that it needs. -/
theorem Program.parse_phrase_product : ∃ (p : Program) (stream : TokenStream),
    Node.Lawful .top (.program p) ∧ (p.phrase (.needed fun _ => 0)).depth ≤ maxNesting ∧
      stream.terminals = [.mark .leftParen, .name "a", .mark .plus, .name "b", .mark .rightParen,
        .mark .star, .name "c", .mark .semicolon] ∧
      stream.terminals = (p.phrase (.needed fun _ => 0)).terminals ∧ stream.failure = none ∧
      ∃ q, ofStream? stream = .ok q ∧ q.bare = p.bare := by
  have hRead : ∃ (p : Program) (stream : TokenStream), (∀ t ∈ stream.tokens, t.Spelled) ∧
      ofStream? stream = .ok p ∧ (p.phrase (.needed fun _ => 0)).depth ≤ maxNesting ∧
      stream.terminals = [.mark .leftParen, .name "a", .mark .plus, .name "b", .mark .rightParen,
        .mark .star, .name "c", .mark .semicolon] ∧
      stream.terminals = (p.phrase (.needed fun _ => 0)).terminals ∧ stream.failure = none := by
    refine ⟨_, ⟨[⟨.leftParen, "(", ⟨1, 1⟩, none⟩, ⟨.identifier, "a", ⟨1, 2⟩, none⟩,
      ⟨.plus, "+", ⟨1, 3⟩, none⟩, ⟨.identifier, "b", ⟨1, 4⟩, none⟩,
      ⟨.rightParen, ")", ⟨1, 5⟩, none⟩, ⟨.star, "*", ⟨1, 6⟩, none⟩,
      ⟨.identifier, "c", ⟨1, 7⟩, none⟩, ⟨.semicolon, ";", ⟨1, 8⟩, none⟩, .eof ⟨1, 9⟩], none⟩, ?_, rfl,
      by decide, rfl, rfl, rfl⟩
    simp only [List.forall_mem_cons, Token.Spelled]
    exact ⟨nofun, fun _ => by decide +kernel, nofun, fun _ => by decide +kernel, nofun, nofun,
      fun _ => by decide +kernel, nofun, nofun, nofun⟩
  obtain ⟨p, stream, hSpelled, hParse, hRoom, hShape, hTerminals, hFailure⟩ := hRead
  have hLawful := (placed_of_stream hSpelled hParse).lawful
  exact ⟨p, stream, hLawful, hRoom, hShape, hTerminals, hFailure,
    parse_phrase hLawful hRoom hTerminals hFailure⟩

end Tern
