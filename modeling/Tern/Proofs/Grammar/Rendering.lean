import Tern.Proofs.Grammar.Form
import Tern.Proofs.Syntax.Phrase

/-!
# Trees written down

A tree that is written down with the parentheses that its operators need, and with any more, is in
the grammar: each expression has the form of the place where it stands.

* `Form.At`: the forms of expressions, by how tightly they bind;
* `Form.Stands`: a phrase that has a form as soon as there is room for it;
* `Expr.stands`, `Stmt.stands`: expressions and statements written down;
* `Program.whole_of_phrase`: programs written down.
-/

namespace Tern

open Terminal (first)

namespace Form

variable {g : Forms} {ctx : Context} {xs ys : List Terminal} {e l r : Expr}

/-! ## Tiers -/

/-- The expressions that bind at least as tightly as a tier. -/
def At (g : Forms) (ctx : Context) : Nat → List Terminal → Expr → Prop
  | 0 | 1 => Expression g ctx
  | 2 => LogicOr g ctx
  | 3 => LogicAnd g ctx
  | 4 => Equality g ctx
  | 5 => Comparison g ctx
  | 6 => Term g ctx
  | 7 => Factor g ctx
  | 8 => Unary g ctx
  | 9 => Called g ctx
  | _ => Primary g ctx

theorem Chained.start {start : List Terminal → Expr → Prop}
    {round : Expr → List Terminal → Expr → Prop} (h : start xs e) : Chained start round xs e :=
  ⟨xs, [], e, (List.append_nil xs).symm, h, .done⟩

theorem Chained.snoc {start : List Terminal → Expr → Prop}
    {round : Expr → List Terminal → Expr → Prop} (h : Chained start round xs l)
    (hRound : round l ys e) : Chained start round (xs ++ ys) e := by
  obtain ⟨us, vs, b, rfl, hStart, hRounds⟩ := h
  exact ⟨us, vs ++ ys, b, by rw [List.append_assoc], hStart, hRounds.snoc hRound⟩

theorem At.loosen {tier : Nat} (h : At g ctx (tier + 1) xs e) : At g ctx tier xs e := by
  match tier with
  | 0 => exact h
  | 1 => exact .value h
  | 2 | 3 | 4 | 5 | 6 | 7 | 9 => exact Chained.start h
  | 8 => exact .call h
  | _ + 10 => exact h

theorem At.mono {tier tier' : Nat} (hLe : tier ≤ tier') (h : At g ctx tier' xs e) :
    At g ctx tier xs e := by
  induction hLe with
  | refl => exact h
  | step _ ih => exact ih h.loosen

theorem At.binary (op : BinaryOp) (s : Option Span) (hl : At g ctx op.tier xs l)
    (hr : At g ctx (op.tier + 1) ys r) :
    At g ctx op.tier (xs ++ .mark op.kind :: ys) (.binary op l r s) := by
  cases op <;> exact Chained.snoc hl (.mk s rfl hr)

theorem At.logical (op : LogicalOp) (s : Option Span) (hl : At g ctx op.tier xs l)
    (hr : At g ctx (op.tier + 1) ys r) :
    At g ctx op.tier (xs ++ .mark op.kind :: ys) (.logical op l r s) := by
  cases op <;> exact Chained.snoc hl (.mk s rfl hr)

theorem At.suffixed (h : At g ctx 9 xs l) (hSuffix : Suffixed g ctx l ys e) :
    At g ctx 9 (xs ++ ys) e :=
  Chained.snoc h hSuffix

/-! ## Phrases -/

/-- The phrase has the form of a tier wherever there is room for it. -/
def Stands (ctx : Context) (tier : Nat) (p : Phrase) (e : Expr) : Prop :=
  ∀ room, p.depth ≤ room → At (forms room) ctx tier p.terminals e

variable {p : Phrase} {tier : Nat} {room : Nat}

theorem Stands.mono {tier' : Nat} (hLe : tier ≤ tier') (h : Stands ctx tier' p e) :
    Stands ctx tier p e :=
  fun room hRoom => (h room hRoom).mono hLe

theorem Stands.inside (h : Stands ctx 1 p e) (hRoom : p.inner.depth ≤ room) :
    (forms room).expression ctx p.terminals e := by
  cases room with
  | zero => cases hRoom
  | succ room => exact h room (Nat.le_of_succ_le_succ hRoom)

theorem Stands.operand (h : Stands ctx 8 p e) (hRoom : p.inner.depth ≤ room) :
    (forms room).operand ctx p.terminals e := by
  cases room with
  | zero => cases hRoom
  | succ room => exact h room (Nat.le_of_succ_le_succ hRoom)

/-- What is in parentheses can stand anywhere. -/
theorem Stands.bracketed (h : Stands ctx 1 p e) (pairs : Nat) :
    Stands ctx 10 (p.bracketed (pairs + 1)) e := by
  induction pairs with
  | zero =>
    intro room hRoom
    exact .grouped (h.inside (by simpa [Phrase.bracketed] using hRoom))
  | succ pairs ih =>
    intro room hRoom
    exact .grouped ((ih.mono (by decide)).inside (by simpa [Phrase.bracketed] using hRoom))

theorem one_le_tier (e : Expr) : 1 ≤ e.tier := by
  cases e with
  | binary op => cases op <;> exact Nat.le_of_ble_eq_true rfl
  | logical op => cases op <;> exact Nat.le_of_ble_eq_true rfl
  | _ => exact Nat.le_of_ble_eq_true rfl

variable {extra : List Nat → Nat} {place : List Nat}

/-- With the parentheses that it needs an expression can stand where it is wanted. -/
theorem Stands.around (h : Stands ctx e.tier p e) {wanted : Nat} (hWanted : wanted ≤ 10) :
    Stands ctx wanted ((Bracketing.needed extra).around place wanted e p) e := by
  unfold Bracketing.around Bracketing.needed
  cases hPairs : (if e.tier < wanted then 1 else 0) + extra place with
  | zero =>
    refine h.mono ?_
    split at hPairs <;> omega
  | succ pairs => exact ((h.mono (one_le_tier e)).bracketed pairs).mono hWanted

theorem depth_commas (ps : List Phrase) :
    (Phrase.commas ps).depth = (Phrase.afterCommas ps).depth := by
  cases ps with
  | nil => rfl
  | cons p ps => simp [Phrase.commas, Phrase.afterCommas]

/-- The phrases are expressions in a row, each one level further down. -/
def StandInRow (ctx : Context) (ps : List Phrase) (es : List Expr) : Prop :=
  ∀ room, (Phrase.afterCommas ps).depth ≤ room →
    AfterCommas ((forms room).expression ctx) (Phrase.afterCommas ps).terminals es

theorem StandInRow.nil : StandInRow ctx [] [] := fun _ _ => .nil

theorem StandInRow.cons {ps : List Phrase} {es : List Expr} (h : Stands ctx 1 p e)
    (hRest : StandInRow ctx ps es) : StandInRow ctx (p.inner :: ps) (e :: es) := by
  intro room hRoom
  simp only [Phrase.afterCommas, Phrase.depth_append, Phrase.depth_mark] at hRoom
  exact .cons (h.inside (by omega)) (hRest room (by omega))

theorem StandInRow.listed {ps : List Phrase} {es : List Expr} (h : StandInRow ctx ps es)
    (hRoom : (Phrase.commas ps).depth ≤ room) :
    Listed ((forms room).expression ctx) (Phrase.commas ps).terminals es := by
  rw [depth_commas] at hRoom
  have hRow := h room hRoom
  cases ps with
  | nil =>
    cases hRow
    exact .nil
  | cons p ps =>
    have hComma : (Phrase.afterCommas (p :: ps)).terminals =
        .mark .comma :: (Phrase.commas (p :: ps)).terminals := rfl
    rw [hComma] at hRow
    generalize (Phrase.commas (p :: ps)).terminals = xs at hRow
    cases hRow with
    | cons hHead hTail => exact .cons hHead hTail

/-! ### Expressions from their parts -/

variable {q : Phrase}

theorem Stands.array {ps : List Phrase} {es : List Expr} (s : Option Span)
    (h : StandInRow ctx ps es) :
    Stands ctx 10 (.between .leftBracket .rightBracket (.commas ps)) (.array es s) := by
  intro room hRoom
  rw [Phrase.depth_between] at hRoom
  exact .array s (h.listed hRoom)

theorem Stands.unary (op : UnaryOp) (s : Option Span) (h : Stands ctx 8 p e) :
    Stands ctx 8 (.mark op.kind ++ p.inner) (.unary op e s) := by
  intro room hRoom
  rw [Phrase.depth_append, Phrase.depth_mark] at hRoom
  have hOperand : (forms room).operand ctx p.terminals e := h.operand (by omega)
  cases op <;> exact .operator s rfl hOperand

theorem Stands.binary (op : BinaryOp) (s : Option Span) (hl : Stands ctx op.tier p l)
    (hr : Stands ctx (op.tier + 1) q r) :
    Stands ctx op.tier (p ++ .mark op.kind ++ q) (.binary op l r s) := by
  intro room hRoom
  simp only [Phrase.depth_append, Phrase.depth_mark] at hRoom
  have hJoined := At.binary op s (hl room (by omega)) (hr room (by omega))
  simpa using hJoined

theorem Stands.logical (op : LogicalOp) (s : Option Span) (hl : Stands ctx op.tier p l)
    (hr : Stands ctx (op.tier + 1) q r) :
    Stands ctx op.tier (p ++ .mark op.kind ++ q) (.logical op l r s) := by
  intro room hRoom
  simp only [Phrase.depth_append, Phrase.depth_mark] at hRoom
  have hJoined := At.logical op s (hl room (by omega)) (hr room (by omega))
  simpa using hJoined

theorem Stands.call {ps : List Phrase} {args : List Expr} (s : Option Span)
    (h : Stands ctx 9 p e) (hArgs : StandInRow ctx ps args) :
    Stands ctx 9 (p ++ .between .leftParen .rightParen (.commas ps)) (.call e args s) := by
  intro room hRoom
  rw [Phrase.depth_append, Phrase.depth_between] at hRoom
  exact (h room (by omega)).suffixed (.call s (hArgs.listed (by omega)))

theorem Stands.member (m : Ident) (s : Option Span) (h : Stands ctx 9 p e) :
    Stands ctx 9 (p ++ .mark .dot ++ .one (.name m.name)) (.member e m s) := by
  intro room hRoom
  simp only [Phrase.depth_append, Phrase.depth_mark, Phrase.depth_one] at hRoom
  have hMember := (h room (by omega)).suffixed (.member m s)
  simpa using hMember

theorem Stands.index (s : Option Span) (h : Stands ctx 9 p l) (hIndex : Stands ctx 1 q r) :
    Stands ctx 9 (p ++ .between .leftBracket .rightBracket q.inner) (.index l r s) := by
  intro room hRoom
  rw [Phrase.depth_append, Phrase.depth_between] at hRoom
  exact (h room (by omega)).suffixed (.index s (hIndex.inside (by omega)))

theorem Stands.assign {target value : Expr} (s : Option Span) (h : Stands ctx 2 p target)
    (hValue : Stands ctx 1 q value) (hAssigns : Grammar.assignTo? target value s = some e) :
    Stands ctx 1 (p ++ .mark .equal ++ q.inner) e := by
  intro room hRoom
  simp only [Phrase.depth_append, Phrase.depth_mark] at hRoom
  have hAssign : At (forms room) ctx 1 (p.terminals ++ .mark .equal :: q.terminals) e :=
    Expression.assign s (h room (by omega)) (hValue.inside (by omega)) hAssigns
  simpa using hAssign

end Form

/-! ## Expressions -/

open Form

section

variable (extra : List Nat → Nat) {ctx : Context}

/-- An expression with the parentheses that it needs where it stands. -/
abbrev Expr.inPlace (place : List Nat) (wanted : Nat) (e : Expr) : Phrase :=
  (Bracketing.needed extra).around place wanted e (e.core (.needed extra) place)

mutual

theorem Expr.stands (place : List Nat) : (e : Expr) → Node.Lawful ctx (.expr e) →
    Stands ctx e.tier (e.core (.needed extra) place) e
  | .string v s, _ => fun _ _ => .string v s
  | .number v s, _ => fun _ _ => .number v s
  | .boolean v s, _ => fun _ _ => .boolean v s
  | .null s, _ => fun _ _ => .null s
  | .name id, _ => fun _ _ => .name id
  | .this s, h => fun _ _ => .this s h.here
  | .super m s, h => fun _ _ => .super m s h.here
  | .array es s, h =>
    .array s (Expr.items_stand place 0 es fun e he => h.inExpr (List.mem_map_of_mem he))
  | .unary op e s, h =>
    .unary op s ((Expr.stands (0 :: place) e (h.inExpr (by simp [Node.ofExpr]))).around (by decide))
  | .binary op l r s, h => by
    have hTier : op.tier + 1 ≤ 10 := by cases op <;> decide
    exact .binary op s
      ((Expr.stands (0 :: place) l (h.inExpr (by simp [Node.ofExpr]))).around (by omega))
      ((Expr.stands (1 :: place) r (h.inExpr (by simp [Node.ofExpr]))).around hTier)
  | .logical op l r s, h => by
    have hTier : op.tier + 1 ≤ 10 := by cases op <;> decide
    exact .logical op s
      ((Expr.stands (0 :: place) l (h.inExpr (by simp [Node.ofExpr]))).around (by omega))
      ((Expr.stands (1 :: place) r (h.inExpr (by simp [Node.ofExpr]))).around hTier)
  | .call f args s, h =>
    .call s ((Expr.stands (0 :: place) f (h.inExpr (by simp [Node.ofExpr]))).around (by decide))
      (Expr.items_stand place 1 args fun e he =>
        h.inExpr (List.mem_cons_of_mem _ (List.mem_map_of_mem he)))
  | .member o m s, h =>
    .member m s ((Expr.stands (0 :: place) o (h.inExpr (by simp [Node.ofExpr]))).around (by decide))
  | .index o i s, h =>
    .index s ((Expr.stands (0 :: place) o (h.inExpr (by simp [Node.ofExpr]))).around (by decide))
      ((Expr.stands (1 :: place) i (h.inExpr (by simp [Node.ofExpr]))).around (by decide))
  | .assign t v s, h => by
    have hTarget : Stands ctx 10 (.one (.name t.name)) (.name t) := fun _ _ => .name t
    exact .assign s (hTarget.around (by decide))
      ((Expr.stands (0 :: place) v (h.inExpr (by simp [Node.ofExpr]))).around (by decide)) rfl
  | .setMember o m v s, h => by
    have ho : Stands ctx 9 (o.inPlace extra (0 :: place) 9) o :=
      (Expr.stands (0 :: place) o (h.inExpr (by simp [Node.ofExpr]))).around (by decide)
    exact .assign s ((ho.member m none).around (by decide))
      ((Expr.stands (1 :: place) v (h.inExpr (by simp [Node.ofExpr]))).around (by decide)) rfl
  | .setIndex o i v s, h => by
    have ho : Stands ctx 9 (o.inPlace extra (0 :: place) 9) o :=
      (Expr.stands (0 :: place) o (h.inExpr (by simp [Node.ofExpr]))).around (by decide)
    have hi : Stands ctx 1 (i.inPlace extra (1 :: place) 1) i :=
      (Expr.stands (1 :: place) i (h.inExpr (by simp [Node.ofExpr]))).around (by decide)
    exact .assign s ((ho.index none hi).around (by decide))
      ((Expr.stands (2 :: place) v (h.inExpr (by simp [Node.ofExpr]))).around (by decide)) rfl

theorem Expr.items_stand (place : List Nat) (i : Nat) : (es : List Expr) →
    (∀ e ∈ es, Node.Lawful ctx (.expr e)) →
    StandInRow ctx (Expr.items (.needed extra) place i es) es
  | [], _ => .nil
  | e :: es, h => by
    obtain ⟨hHead, hTail⟩ := List.forall_mem_cons.mp h
    exact .cons ((Expr.stands (i :: place) e hHead).around (by decide))
      (Expr.items_stand place (i + 1) es hTail)

end

/-! ## Statements -/

variable (place : List Nat) {room : Nat}

theorem Expr.form_of_phrase {e : Expr} (h : Node.Lawful ctx (.expr e))
    (hRoom : (e.phrase (.needed extra) place).depth ≤ room) :
    (forms room).expression ctx (e.phrase (.needed extra) place).terminals e :=
  ((e.stands extra place h).around (by decide)).inside hRoom

theorem Expr.form_of_condition {e : Expr} (h : Node.Lawful ctx (.expr e))
    (hRoom : (e.condition (.needed extra) place).depth ≤ room) :
    Condition (forms room) ctx (e.condition (.needed extra) place).terminals e := by
  rw [Expr.condition, Phrase.depth_between] at hRoom
  exact .mk (e.form_of_phrase extra place h hRoom)

theorem Expr.form_of_optional {e : Option Expr} (h : ∀ e' ∈ e, Node.Lawful ctx (.expr e'))
    (hRoom : (Expr.optional (.needed extra) place e).depth ≤ room) :
    Optional ((forms room).expression ctx) (Expr.optional (.needed extra) place e).terminals e := by
  cases e with
  | none => exact .none
  | some e => exact .some (e.form_of_phrase extra place (h e rfl) hRoom)

theorem Simple.form_of_phrase {s : Simple} (h : Node.Lawful ctx (.stmt (.simple s)))
    (hRoom : (s.phrase (.needed extra) place).depth ≤ room) :
    Plain (forms room) ctx (s.phrase (.needed extra) place).terminals s := by
  cases s with
  | var id v s =>
    cases v with
    | none => exact .declare id s
    | some v =>
      have hv : Node.Lawful ctx (.expr v) :=
        h.part (by simp [Node.parts, Node.stmtParts, Node.ofStmt, Node.ofSimple])
      simp only [Simple.phrase, Phrase.depth_append, Phrase.depth_mark, Phrase.depth_one] at hRoom
      have hRoom : (v.phrase (.needed extra) (0 :: place)).depth ≤ room := by omega
      have hPlain := Plain.var id s (v.form_of_phrase extra (0 :: place) hv hRoom)
      simpa [Simple.phrase] using hPlain
  | const id v s =>
    have hv : Node.Lawful ctx (.expr v) :=
      h.part (by simp [Node.parts, Node.stmtParts, Node.ofStmt, Node.ofSimple])
    simp only [Simple.phrase, Phrase.depth_append, Phrase.depth_mark, Phrase.depth_one] at hRoom
    have hRoom : (v.phrase (.needed extra) (0 :: place)).depth ≤ room := by omega
    have hPlain := Plain.const id s (v.form_of_phrase extra (0 :: place) hv hRoom)
    simpa [Simple.phrase] using hPlain
  | expr e s =>
    have he : Node.Lawful ctx (.expr e) :=
      h.part (by simp [Node.parts, Node.stmtParts, Node.ofStmt, Node.ofSimple])
    exact .expr s (e.form_of_phrase extra (0 :: place) he hRoom)

theorem Simple.form_of_optional {s : Option Simple}
    (h : ∀ s' ∈ s, Node.Lawful ctx (.stmt (.simple s')))
    (hRoom : (Simple.optional (.needed extra) place s).depth ≤ room) :
    Optional (Plain (forms room) ctx) (Simple.optional (.needed extra) place s).terminals s := by
  cases s with
  | none => exact .none
  | some s => exact .some (s.form_of_phrase extra place (h s rfl) hRoom)

theorem Ident.listed_parameters (ids : List Ident) :
    Listed Parameter (Ident.parameters ids).terminals ids := by
  have hAfter : ∀ ids : List Ident, AfterCommas Parameter
      (Phrase.afterCommas (ids.map fun id => .one (.name id.name))).terminals ids := by
    intro ids
    induction ids with
    | nil => exact .nil
    | cons id ids ih => exact .cons (.mk id) ih
  cases ids with
  | nil => exact .nil
  | cons id ids => exact .cons (.mk id) (hAfter ids)

mutual

theorem Stmt.form_of_phrase (place : List Nat) : (s : Stmt) → ∀ {ctx : Context},
    Node.Lawful ctx (.stmt s) → ∀ {room : Nat} (next : Terminal),
    (s.phrase (.needed extra) place).depth ≤ room →
    Statement (forms room) ctx (s.phrase (.needed extra) place).terminals next s
  | .simple s, _, h, _, next, hRoom => by
    simp only [Stmt.phrase, Phrase.depth_append, Phrase.depth_mark] at hRoom
    exact .simple (s.form_of_phrase extra place h (by omega)) .semicolon
  | .func f, _, h, _, next, hRoom => .func (FuncDef.form_of_phrase place f h hRoom)
  | .cls ⟨id, parent, methods, s⟩, ctx, h, room, next, hRoom => by
    simp only [Stmt.phrase, Phrase.depth_append, Phrase.depth_mark, Phrase.depth_one,
      Phrase.depth_between] at hRoom
    have hMethods : ∀ f ∈ methods, Node.Lawful _ (.stmt (.func f)) := fun f hf =>
      h.part (List.mem_append_right _ (List.mem_map_of_mem hf))
    have hSeries : Series (fun zs _ => Function (forms room) (ctx.cls parent.isSome) zs) _
        (.mark .rightBrace) methods :=
      FuncDef.form_of_phrases place 0 methods hMethods _ (by omega)
    cases parent with
    | none =>
      have hClass := Class.mk id s .none hSeries
      exact .cls (by simpa [Stmt.phrase, Ident.superclass] using hClass)
    | some parent =>
      have hClass := Class.mk id s (.some parent (h.here parent rfl)) hSeries
      exact .cls (by simpa [Stmt.phrase, Ident.superclass] using hClass)
  | .block body, _, h, _, next, hRoom => .block (Block.form_of_phrase place body h hRoom)
  | .ifElse c body elifs e s, ctx, h, room, next, hRoom => by
    simp only [Stmt.phrase, Phrase.depth_append, Phrase.depth_mark] at hRoom
    have hCondition : Condition (forms room) ctx _ c := c.form_of_condition extra (0 :: place)
      (h.part (by simp [Node.parts, Node.stmtParts, Node.ofStmt])) (by omega)
    have hBody : Braced (forms room) ctx _ body := Block.form_of_phrase (1 :: place) body
      (h.part (by simp [Node.parts, Node.stmtParts, Node.ofStmt])) (by omega)
    have hElifs : Series (fun zs _ => Arm (forms room) ctx zs) _ next elifs :=
      ElifClause.form_of_phrases place 3 elifs
        (fun c hc => h.part (by simp [Node.parts, Node.stmtParts, Node.ofStmt, hc])) _ (by omega)
    have hElse : Optional (ElseArm (forms room) ctx) _ e := Block.form_of_else (2 :: place) e
      (fun b hb => h.part (by simp_all [Node.parts, Node.stmtParts, Node.ofStmt])) (by omega)
    have hAll : Statement (forms room) ctx _ next (.ifElse c body elifs e s) :=
      .ifElse s hCondition hBody hElifs hElse
    simpa [Stmt.phrase] using hAll
  | .whileLoop c body s, ctx, h, room, next, hRoom => by
    simp only [Stmt.phrase, Phrase.depth_append, Phrase.depth_mark] at hRoom
    have hCondition : Condition (forms room) ctx _ c := c.form_of_condition extra (0 :: place)
      (h.part (by simp [Node.parts, Node.stmtParts])) (by omega)
    have hBody : Braced (forms room) ctx.loop _ body := Block.form_of_phrase (1 :: place) body
      (h.part (by simp [Node.parts, Node.stmtParts])) (by omega)
    have hAll : Statement (forms room) ctx _ next (.whileLoop c body s) :=
      .whileLoop s hCondition hBody
    simpa [Stmt.phrase] using hAll
  | .forLoop i c u body s, ctx, h, room, next, hRoom => by
    simp only [Stmt.phrase, Phrase.depth_append, Phrase.depth_mark, Phrase.depth_between] at hRoom
    have hStart : Optional (Plain (forms room) ctx) _ i :=
      Simple.form_of_optional extra (0 :: place)
        (fun i hi => h.part (by simp_all [Node.parts, Node.stmtParts])) (by omega)
    have hCondition : Optional ((forms room).expression ctx) _ c :=
      Expr.form_of_optional extra (1 :: place)
        (fun c hc => h.part (by simp_all [Node.parts, Node.stmtParts])) (by omega)
    have hUpdate : Optional ((forms room).expression ctx) _ u :=
      Expr.form_of_optional extra (2 :: place)
        (fun u hu => h.part (by simp_all [Node.parts, Node.stmtParts])) (by omega)
    have hBody : Braced (forms room) ctx.loop _ body := Block.form_of_phrase (3 :: place) body
      (h.part (by simp [Node.parts, Node.stmtParts])) (by omega)
    have hAll : Statement (forms room) ctx _ next (.forLoop i c u body s) :=
      .forLoop s hStart hCondition hUpdate hBody
    simpa [Stmt.phrase] using hAll
  | .breakLoop s, _, h, _, next, _ => .breakLoop s h.here .semicolon
  | .continueLoop s, _, h, _, next, _ => .continueLoop s h.here .semicolon
  | .ret e s, ctx, h, room, next, hRoom => by
    simp only [Stmt.phrase, Phrase.depth_append, Phrase.depth_mark] at hRoom
    have hValue : Optional ((forms room).expression ctx) _ e :=
      Expr.form_of_optional extra (0 :: place)
        (fun e he => h.part (by simp_all [Node.parts, Node.stmtParts, Node.ofStmt])) (by omega)
    have hAll : Statement (forms room) ctx _ next (.ret e s) := .ret s h.here hValue .semicolon
    simpa [Stmt.phrase] using hAll
  | .tryCatch body param handler s, ctx, h, room, next, hRoom => by
    simp only [Stmt.phrase, Phrase.depth_append, Phrase.depth_mark] at hRoom
    have hBody : Braced (forms room) ctx _ body := Block.form_of_phrase (0 :: place) body
      (h.part (by simp [Node.parts, Node.stmtParts, Node.ofStmt])) (by omega)
    have hHandler : Braced (forms room) ctx _ handler :=
      Block.form_of_phrase (1 :: place) handler
        (h.part (by simp [Node.parts, Node.stmtParts, Node.ofStmt])) (by omega)
    have hAll : Statement (forms room) ctx _ next (.tryCatch body param handler s) :=
      .tryCatch param s hBody hHandler
    simpa [Stmt.phrase] using hAll
  | .throw e s, ctx, h, room, next, hRoom => by
    simp only [Stmt.phrase, Phrase.depth_append, Phrase.depth_mark] at hRoom
    have hValue : (forms room).expression ctx _ e := e.form_of_phrase extra (0 :: place)
      (h.part (by simp [Node.parts, Node.stmtParts, Node.ofStmt])) (by omega)
    have hAll : Statement (forms room) ctx _ next (.throw e s) := .throw s hValue .semicolon
    simpa [Stmt.phrase] using hAll

/-- Statements in a row. -/
theorem Stmt.form_of_phrases (place : List Nat) (i : Nat) : (body : List Stmt) →
    ∀ {ctx : Context}, (∀ s ∈ body, Node.Lawful ctx (.stmt s)) → ∀ {room : Nat} (next : Terminal),
    (Stmt.phrases (.needed extra) place i body).depth ≤ room →
    Series ((forms room).declaration ctx) (Stmt.phrases (.needed extra) place i body).terminals
      next body
  | [], _, _, _, _, _ => .nil
  | s :: rest, ctx, h, room, next, hRoom => by
    obtain ⟨hHead, hTail⟩ := List.forall_mem_cons.mp h
    simp only [Stmt.phrases, Phrase.depth_append, Phrase.depth_inner] at hRoom
    have hRest : Series ((forms room).declaration ctx) _ next rest :=
      Stmt.form_of_phrases place (i + 1) rest hTail next (by omega)
    cases room with
    | zero => omega
    | succ room => exact .cons (Stmt.form_of_phrase (i :: place) s hHead _ (by omega)) hRest

/-- A block. -/
theorem Block.form_of_phrase (place : List Nat) : (b : Block) → ∀ {ctx : Context},
    Node.Lawful ctx (.block b) → ∀ {room : Nat},
    (b.phrase (.needed extra) place).depth ≤ room →
    Braced (forms room) ctx (b.phrase (.needed extra) place).terminals b
  | ⟨body, s⟩, _, h, _, hRoom => by
    rw [Block.phrase, Phrase.depth_between] at hRoom
    exact .mk s (Stmt.form_of_phrases place 0 body
      (fun t ht => h.part (List.mem_map_of_mem (List.mem_map_of_mem ht))) _ hRoom)

/-- The last arm of an `if`, if there is one. -/
theorem Block.form_of_else (place : List Nat) : (e : Option Block) → ∀ {ctx : Context},
    (∀ b ∈ e, Node.Lawful ctx (.block b)) → ∀ {room : Nat},
    (Block.elsePhrase (.needed extra) place e).depth ≤ room →
    Optional (ElseArm (forms room) ctx) (Block.elsePhrase (.needed extra) place e).terminals e
  | none, _, _, _, _ => .none
  | some b, _, h, _, hRoom => by
    simp only [Block.elsePhrase, Phrase.depth_append, Phrase.depth_mark] at hRoom
    exact .some (.mk (Block.form_of_phrase place b (h b rfl) (by omega)))

/-- A function or a method. -/
theorem FuncDef.form_of_phrase (place : List Nat) : (f : FuncDef) → ∀ {ctx : Context},
    Node.Lawful ctx (.stmt (.func f)) → ∀ {room : Nat},
    (f.phrase (.needed extra) place).depth ≤ room →
    Function (forms room) ctx (f.phrase (.needed extra) place).terminals f
  | ⟨id, params, body, s⟩, ctx, h, room, hRoom => by
    simp only [FuncDef.phrase, Phrase.depth_append, Phrase.depth_mark] at hRoom
    have hBody : Braced (forms room) ctx.func _ body := Block.form_of_phrase (0 :: place) body
      (h.part (by simp [Node.parts, Node.stmtParts])) (by omega)
    have hAll := Function.mk id s (Ident.listed_parameters params) h.here hBody
    simpa [FuncDef.phrase] using hAll

/-- Methods in a row. -/
theorem FuncDef.form_of_phrases (place : List Nat) (i : Nat) : (fs : List FuncDef) →
    ∀ {ctx : Context}, (∀ f ∈ fs, Node.Lawful ctx (.stmt (.func f))) →
    ∀ {room : Nat} (next : Terminal), (FuncDef.phrases (.needed extra) place i fs).depth ≤ room →
    Series (fun zs _ => Function (forms room) ctx zs)
      (FuncDef.phrases (.needed extra) place i fs).terminals next fs
  | [], _, _, _, _, _ => .nil
  | f :: rest, _, h, _, next, hRoom => by
    obtain ⟨hHead, hTail⟩ := List.forall_mem_cons.mp h
    simp only [FuncDef.phrases, Phrase.depth_append] at hRoom
    exact .cons (FuncDef.form_of_phrase (i :: place) f hHead (by omega))
      (FuncDef.form_of_phrases place (i + 1) rest hTail next (by omega))

/-- The arms of an `if` in a row. -/
theorem ElifClause.form_of_phrases (place : List Nat) (i : Nat) : (cs : List ElifClause) →
    ∀ {ctx : Context}, (∀ c ∈ cs, Node.Lawful ctx (.elif c)) →
    ∀ {room : Nat} (next : Terminal),
    (ElifClause.phrases (.needed extra) place i cs).depth ≤ room →
    Series (fun zs _ => Arm (forms room) ctx zs)
      (ElifClause.phrases (.needed extra) place i cs).terminals next cs
  | [], _, _, _, _, _ => .nil
  | ⟨c, body, span⟩ :: rest, ctx, h, room, next, hRoom => by
    obtain ⟨hHead, hTail⟩ := List.forall_mem_cons.mp h
    simp only [ElifClause.phrases, Phrase.depth_append, Phrase.depth_mark] at hRoom
    have hCondition : Condition (forms room) ctx _ c :=
      c.form_of_condition extra (0 :: i :: place)
        (hHead.part (by simp [Node.parts, Node.children])) (by omega)
    have hBody : Braced (forms room) ctx _ body := Block.form_of_phrase (1 :: i :: place) body
      (hHead.part (by simp [Node.parts, Node.children])) (by omega)
    have hRest : Series (fun zs _ => Arm (forms room) ctx zs) _ next rest :=
      ElifClause.form_of_phrases place (i + 1) rest hTail next (by omega)
    have hAll : Series (fun zs _ => Arm (forms room) ctx zs) _ next (⟨c, body, span⟩ :: rest) :=
      .cons (.mk span hCondition hBody) hRest
    simpa [ElifClause.phrases] using hAll

end

/-- A program that is written down is in the grammar. -/
theorem Program.whole_of_phrase {p : Program} (h : Node.Lawful .top (.program p))
    (hRoom : (p.phrase (.needed extra)).depth ≤ maxNesting) :
    Whole (p.phrase (.needed extra)).terminals p :=
  Stmt.form_of_phrases extra [] 0 p.body
    (fun _ hs => h.part (List.mem_map_of_mem (List.mem_map_of_mem hs))) _ hRoom

end

end Tern
