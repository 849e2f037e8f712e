import Tern.Syntax.Basic

/-!
# Trees without spans

Two trees are the same up to spans when they become one tree once all spans are taken away.

* `Expr.bare`, `Stmt.bare`, `Program.bare`: a tree without its spans.
-/

namespace Tern

/-- An identifier without its span. -/
def Ident.bare (id : Ident) : Ident := ⟨id.name, none⟩

@[simp] theorem Ident.name_bare (id : Ident) : id.bare.name = id.name := rfl

mutual

/-- An expression without spans. -/
def Expr.bare : Expr → Expr
  | .string v _ => .string v none
  | .number v _ => .number v none
  | .boolean v _ => .boolean v none
  | .null _ => .null none
  | .array es _ => .array (Expr.bareAll es) none
  | .name id => .name id.bare
  | .this _ => .this none
  | .super m _ => .super m.bare none
  | .unary op e _ => .unary op e.bare none
  | .binary op l r _ => .binary op l.bare r.bare none
  | .logical op l r _ => .logical op l.bare r.bare none
  | .call f args _ => .call f.bare (Expr.bareAll args) none
  | .member o m _ => .member o.bare m.bare none
  | .setMember o m v _ => .setMember o.bare m.bare v.bare none
  | .index o i _ => .index o.bare i.bare none
  | .setIndex o i v _ => .setIndex o.bare i.bare v.bare none
  | .assign t v _ => .assign t.bare v.bare none

/-- Expressions without spans. -/
def Expr.bareAll : List Expr → List Expr
  | [] => []
  | e :: es => e.bare :: Expr.bareAll es

end

theorem Expr.bareAll_eq (es : List Expr) : Expr.bareAll es = es.map Expr.bare := by
  induction es with
  | nil => rfl
  | cons e es ih => simp [Expr.bareAll, ih]

/-- A simple statement without spans. -/
def Simple.bare : Simple → Simple
  | .var id v _ => .var id.bare (v.map Expr.bare) none
  | .const id v _ => .const id.bare v.bare none
  | .expr e _ => .expr e.bare none

mutual

/-- A statement without spans. -/
def Stmt.bare : Stmt → Stmt
  | .simple s => .simple s.bare
  | .func f => .func f.bare
  | .cls ⟨id, parent, methods, _⟩ =>
    .cls ⟨id.bare, parent.map Ident.bare, FuncDef.bareAll methods, none⟩
  | .block b => .block b.bare
  | .ifElse c b elifs e _ =>
    .ifElse c.bare b.bare (ElifClause.bareAll elifs) (Block.bareOption e) none
  | .whileLoop c b _ => .whileLoop c.bare b.bare none
  | .forLoop i c u b _ =>
    .forLoop (i.map Simple.bare) (c.map Expr.bare) (u.map Expr.bare) b.bare none
  | .breakLoop _ => .breakLoop none
  | .continueLoop _ => .continueLoop none
  | .ret e _ => .ret (e.map Expr.bare) none
  | .tryCatch b p h _ => .tryCatch b.bare p.bare h.bare none
  | .throw e _ => .throw e.bare none

/-- Statements without spans. -/
def Stmt.bareAll : List Stmt → List Stmt
  | [] => []
  | s :: rest => s.bare :: Stmt.bareAll rest

/-- A block without spans. -/
def Block.bare : Block → Block
  | ⟨body, _⟩ => ⟨Stmt.bareAll body, none⟩

/-- A block that may be missing, without spans. -/
def Block.bareOption : Option Block → Option Block
  | some b => some b.bare
  | none => none

/-- A function without spans. -/
def FuncDef.bare : FuncDef → FuncDef
  | ⟨id, params, body, _⟩ => ⟨id.bare, params.map Ident.bare, body.bare, none⟩

/-- Functions without spans. -/
def FuncDef.bareAll : List FuncDef → List FuncDef
  | [] => []
  | f :: rest => f.bare :: FuncDef.bareAll rest

/-- The arms of an `if` without spans. -/
def ElifClause.bareAll : List ElifClause → List ElifClause
  | [] => []
  | ⟨c, b, _⟩ :: rest => ⟨c.bare, b.bare, none⟩ :: ElifClause.bareAll rest

end

/-- An arm of an `if` without spans. -/
def ElifClause.bare (c : ElifClause) : ElifClause := ⟨c.condition.bare, c.body.bare, none⟩

theorem Stmt.bareAll_eq (body : List Stmt) : Stmt.bareAll body = body.map Stmt.bare := by
  induction body with
  | nil => rfl
  | cons s rest ih => simp [Stmt.bareAll, ih]

theorem FuncDef.bareAll_eq (fs : List FuncDef) : FuncDef.bareAll fs = fs.map FuncDef.bare := by
  induction fs with
  | nil => rfl
  | cons f rest ih => simp [FuncDef.bareAll, ih]

theorem ElifClause.bareAll_eq (cs : List ElifClause) :
    ElifClause.bareAll cs = cs.map ElifClause.bare := by
  induction cs with
  | nil => rfl
  | cons c rest ih =>
    obtain ⟨condition, body, s⟩ := c
    simp [ElifClause.bareAll, ElifClause.bare, ih]

/-- A program without spans. -/
def Program.bare (p : Program) : Program := ⟨p.body.map Stmt.bare, none⟩

end Tern
