import Tern.Proofs.Syntax.Bare

/-!
# Trees with other spans

The spans of a tree can be changed all at once, each by the same function. Taking them away is one
such change, and moving a tree to other lines is another.

* `Expr.respan`, `Stmt.respan`, `Program.respan`: a tree with its spans changed;
* `Stmt.respan_none`: without any spans it is the bare tree;
* `Stmt.respan_id`: a change that does nothing.
-/

namespace Tern

variable (f : Option Span → Option Span)

/-- An identifier with its span changed. -/
def Ident.respan (id : Ident) : Ident := ⟨id.name, f id.span⟩

@[simp] theorem Ident.name_respan (id : Ident) : (id.respan f).name = id.name := rfl

mutual

/-- An expression with its spans changed. -/
def Expr.respan : Expr → Expr
  | .string v s => .string v (f s)
  | .number v s => .number v (f s)
  | .boolean v s => .boolean v (f s)
  | .null s => .null (f s)
  | .array es s => .array (Expr.respanAll es) (f s)
  | .name id => .name (id.respan f)
  | .this s => .this (f s)
  | .super m s => .super (m.respan f) (f s)
  | .unary op e s => .unary op e.respan (f s)
  | .binary op l r s => .binary op l.respan r.respan (f s)
  | .logical op l r s => .logical op l.respan r.respan (f s)
  | .call callee args s => .call callee.respan (Expr.respanAll args) (f s)
  | .member o m s => .member o.respan (m.respan f) (f s)
  | .setMember o m v s => .setMember o.respan (m.respan f) v.respan (f s)
  | .index o i s => .index o.respan i.respan (f s)
  | .setIndex o i v s => .setIndex o.respan i.respan v.respan (f s)
  | .assign t v s => .assign (t.respan f) v.respan (f s)

/-- Expressions with their spans changed. -/
def Expr.respanAll : List Expr → List Expr
  | [] => []
  | e :: es => e.respan :: Expr.respanAll es

end

@[simp] theorem Expr.respanAll_eq (es : List Expr) :
    Expr.respanAll f es = es.map (Expr.respan f) := by
  induction es with
  | nil => rfl
  | cons e es ih => simp [Expr.respanAll, ih]

/-- A simple statement with its spans changed. -/
def Simple.respan : Simple → Simple
  | .var id v s => .var (id.respan f) (v.map (Expr.respan f)) (f s)
  | .const id v s => .const (id.respan f) (v.respan f) (f s)
  | .expr e s => .expr (e.respan f) (f s)

mutual

/-- A statement with its spans changed. -/
def Stmt.respan : Stmt → Stmt
  | .simple s => .simple (s.respan f)
  | .func fn => .func fn.respan
  | .cls c => .cls c.respan
  | .block b => .block b.respan
  | .ifElse c b elifs e s =>
    .ifElse (c.respan f) b.respan (ElifClause.respanAll elifs) (Block.respanOption e) (f s)
  | .whileLoop c b s => .whileLoop (c.respan f) b.respan (f s)
  | .forLoop i c u b s =>
    .forLoop (i.map (Simple.respan f)) (c.map (Expr.respan f)) (u.map (Expr.respan f)) b.respan
      (f s)
  | .breakLoop s => .breakLoop (f s)
  | .continueLoop s => .continueLoop (f s)
  | .ret e s => .ret (e.map (Expr.respan f)) (f s)
  | .tryCatch b p h s => .tryCatch b.respan (p.respan f) h.respan (f s)
  | .throw e s => .throw (e.respan f) (f s)

/-- Statements with their spans changed. -/
def Stmt.respanAll : List Stmt → List Stmt
  | [] => []
  | s :: rest => s.respan :: Stmt.respanAll rest

/-- A block with its spans changed. -/
def Block.respan : Block → Block
  | ⟨body, s⟩ => ⟨Stmt.respanAll body, f s⟩

/-- A block that may be missing, with its spans changed. -/
def Block.respanOption : Option Block → Option Block
  | some b => some b.respan
  | none => none

/-- A function with its spans changed. -/
def FuncDef.respan : FuncDef → FuncDef
  | ⟨id, params, body, s⟩ => ⟨id.respan f, params.map (Ident.respan f), body.respan, f s⟩

/-- Functions with their spans changed. -/
def FuncDef.respanAll : List FuncDef → List FuncDef
  | [] => []
  | fn :: rest => fn.respan :: FuncDef.respanAll rest

/-- A class with its spans changed. -/
def ClassDef.respan : ClassDef → ClassDef
  | ⟨id, parent, methods, s⟩ =>
    ⟨id.respan f, parent.map (Ident.respan f), FuncDef.respanAll methods, f s⟩

/-- An arm of an `if` with its spans changed. -/
def ElifClause.respan : ElifClause → ElifClause
  | ⟨c, b, s⟩ => ⟨c.respan f, b.respan, f s⟩

/-- The arms of an `if` with their spans changed. -/
def ElifClause.respanAll : List ElifClause → List ElifClause
  | [] => []
  | c :: rest => c.respan :: ElifClause.respanAll rest

end

/-- A program with its spans changed. -/
def Program.respan (p : Program) : Program := ⟨p.body.map (Stmt.respan f), f p.span⟩

/-! ## Lists and parts -/

@[simp] theorem Stmt.respanAll_eq (body : List Stmt) :
    Stmt.respanAll f body = body.map (Stmt.respan f) := by
  induction body with
  | nil => rfl
  | cons s rest ih => simp [Stmt.respanAll, ih]

@[simp] theorem FuncDef.respanAll_eq (fs : List FuncDef) :
    FuncDef.respanAll f fs = fs.map (FuncDef.respan f) := by
  induction fs with
  | nil => rfl
  | cons fn rest ih => simp [FuncDef.respanAll, ih]

@[simp] theorem ElifClause.respanAll_eq (cs : List ElifClause) :
    ElifClause.respanAll f cs = cs.map (ElifClause.respan f) := by
  induction cs with
  | nil => rfl
  | cons c rest ih => simp [ElifClause.respanAll, ih]

@[simp] theorem Block.respanOption_eq (b : Option Block) :
    Block.respanOption f b = b.map (Block.respan f) := by
  cases b with
  | none => simp [Block.respanOption]
  | some b => simp [Block.respanOption]

@[simp] theorem Block.body_respan (b : Block) : (b.respan f).body = b.body.map (Stmt.respan f) := by
  obtain ⟨body, s⟩ := b
  simp [Block.respan]

@[simp] theorem FuncDef.id_respan (fn : FuncDef) : (fn.respan f).id = fn.id.respan f := by
  obtain ⟨id, params, body, s⟩ := fn
  simp [FuncDef.respan]

@[simp] theorem FuncDef.params_respan (fn : FuncDef) :
    (fn.respan f).params = fn.params.map (Ident.respan f) := by
  obtain ⟨id, params, body, s⟩ := fn
  simp [FuncDef.respan]

@[simp] theorem FuncDef.body_respan (fn : FuncDef) : (fn.respan f).body = fn.body.respan f := by
  obtain ⟨id, params, body, s⟩ := fn
  simp [FuncDef.respan]

@[simp] theorem ClassDef.id_respan (c : ClassDef) : (c.respan f).id = c.id.respan f := by
  obtain ⟨id, parent, methods, s⟩ := c
  simp [ClassDef.respan]

@[simp] theorem ClassDef.superclass_respan (c : ClassDef) :
    (c.respan f).superclass = c.superclass.map (Ident.respan f) := by
  obtain ⟨id, parent, methods, s⟩ := c
  simp [ClassDef.respan]

@[simp] theorem ClassDef.methods_respan (c : ClassDef) :
    (c.respan f).methods = c.methods.map (FuncDef.respan f) := by
  obtain ⟨id, parent, methods, s⟩ := c
  simp [ClassDef.respan]

@[simp] theorem ElifClause.condition_respan (c : ElifClause) :
    (c.respan f).condition = c.condition.respan f := by
  obtain ⟨condition, body, s⟩ := c
  simp [ElifClause.respan]

@[simp] theorem ElifClause.body_respan (c : ElifClause) :
    (c.respan f).body = c.body.respan f := by
  obtain ⟨condition, body, s⟩ := c
  simp [ElifClause.respan]

@[simp] theorem Expr.span_respan (e : Expr) : (e.respan f).span = f e.span := by
  cases e <;> simp [Expr.respan, Expr.span, Ident.respan]

@[simp] theorem Stmt.span_respan (s : Stmt) : (s.respan f).span = f s.span := by
  cases s with
  | simple s => cases s <;> simp [Stmt.respan, Simple.respan, Stmt.span, Simple.span]
  | func fn =>
    obtain ⟨id, params, body, s⟩ := fn
    simp [Stmt.respan, FuncDef.respan, Stmt.span]
  | cls c =>
    obtain ⟨id, parent, methods, s⟩ := c
    simp [Stmt.respan, ClassDef.respan, Stmt.span]
  | block b =>
    obtain ⟨body, s⟩ := b
    simp [Stmt.respan, Block.respan, Stmt.span]
  | _ => simp [Stmt.respan, Stmt.span]

/-! ## Without spans -/

mutual

theorem Expr.respan_none : ∀ e : Expr, e.respan (fun _ => none) = e.bare
  | .string .. | .number .. | .boolean .. | .null _ | .name _ | .this _ | .super .. => rfl
  | .array es _ => by rw [Expr.respan, Expr.bare, Expr.respanAll_none es]
  | .unary _ e _ => by rw [Expr.respan, Expr.bare, Expr.respan_none e]
  | .binary _ l r _ | .logical _ l r _ => by
    rw [Expr.respan, Expr.bare, Expr.respan_none l, Expr.respan_none r]
  | .call callee args _ => by
    rw [Expr.respan, Expr.bare, Expr.respan_none callee, Expr.respanAll_none args]
  | .member o _ _ => by
    rw [Expr.respan, Expr.bare, Expr.respan_none o]
    rfl
  | .setMember o _ v _ => by
    rw [Expr.respan, Expr.bare, Expr.respan_none o, Expr.respan_none v]
    rfl
  | .index o i _ => by rw [Expr.respan, Expr.bare, Expr.respan_none o, Expr.respan_none i]
  | .setIndex o i v _ => by
    rw [Expr.respan, Expr.bare, Expr.respan_none o, Expr.respan_none i, Expr.respan_none v]
  | .assign _ v _ => by
    rw [Expr.respan, Expr.bare, Expr.respan_none v]
    rfl

theorem Expr.respanAll_none : ∀ es : List Expr,
    Expr.respanAll (fun _ => none) es = Expr.bareAll es
  | [] => rfl
  | e :: es => by rw [Expr.respanAll, Expr.bareAll, Expr.respan_none e, Expr.respanAll_none es]

end

theorem Expr.respan_none_eq : Expr.respan (fun _ => none) = Expr.bare := funext Expr.respan_none

theorem Ident.respan_none_eq : Ident.respan (fun _ => none) = Ident.bare := rfl

theorem Simple.respan_none (s : Simple) : s.respan (fun _ => none) = s.bare := by
  cases s <;> simp only [Simple.respan, Simple.bare, Expr.respan_none_eq, Ident.respan_none_eq]

theorem Simple.respan_none_eq : Simple.respan (fun _ => none) = Simple.bare :=
  funext Simple.respan_none

mutual

theorem Stmt.respan_none : ∀ s : Stmt, s.respan (fun _ => none) = s.bare
  | .simple s => by rw [Stmt.respan, Stmt.bare, Simple.respan_none s]
  | .func fn => by rw [Stmt.respan, Stmt.bare, FuncDef.respan_none fn]
  | .cls ⟨_, _, methods, _⟩ => by
    rw [Stmt.respan, Stmt.bare, ClassDef.respan, FuncDef.respanAll_none methods,
      Ident.respan_none_eq]
  | .block b => by rw [Stmt.respan, Stmt.bare, Block.respan_none b]
  | .ifElse c b elifs e _ => by
    rw [Stmt.respan, Stmt.bare, Expr.respan_none, Block.respan_none b,
      ElifClause.respanAll_none elifs, Block.respanOption_none e]
  | .whileLoop c b _ => by rw [Stmt.respan, Stmt.bare, Expr.respan_none, Block.respan_none b]
  | .forLoop i c u b _ => by
    rw [Stmt.respan, Stmt.bare, Simple.respan_none_eq, Expr.respan_none_eq, Block.respan_none b]
  | .breakLoop _ | .continueLoop _ => rfl
  | .ret e _ => by rw [Stmt.respan, Stmt.bare, Expr.respan_none_eq]
  | .tryCatch b p h _ => by
    rw [Stmt.respan, Stmt.bare, Block.respan_none b, Block.respan_none h, Ident.respan_none_eq]
  | .throw e _ => by rw [Stmt.respan, Stmt.bare, Expr.respan_none]

theorem Stmt.respanAll_none : ∀ body : List Stmt,
    Stmt.respanAll (fun _ => none) body = Stmt.bareAll body
  | [] => rfl
  | s :: rest => by rw [Stmt.respanAll, Stmt.bareAll, Stmt.respan_none s, Stmt.respanAll_none rest]

theorem Block.respan_none : ∀ b : Block, b.respan (fun _ => none) = b.bare
  | ⟨body, _⟩ => by rw [Block.respan, Block.bare, Stmt.respanAll_none body]

theorem Block.respanOption_none : ∀ b : Option Block,
    Block.respanOption (fun _ => none) b = Block.bareOption b
  | some b => by rw [Block.respanOption, Block.bareOption, Block.respan_none b]
  | none => by rw [Block.respanOption, Block.bareOption]

theorem FuncDef.respan_none : ∀ fn : FuncDef, fn.respan (fun _ => none) = fn.bare
  | ⟨_, _, body, _⟩ => by
    rw [FuncDef.respan, FuncDef.bare, Block.respan_none body, Ident.respan_none_eq]

theorem FuncDef.respanAll_none : ∀ fs : List FuncDef,
    FuncDef.respanAll (fun _ => none) fs = FuncDef.bareAll fs
  | [] => rfl
  | fn :: rest => by
    rw [FuncDef.respanAll, FuncDef.bareAll, FuncDef.respan_none fn, FuncDef.respanAll_none rest]

theorem ElifClause.respanAll_none : ∀ cs : List ElifClause,
    ElifClause.respanAll (fun _ => none) cs = ElifClause.bareAll cs
  | [] => rfl
  | ⟨c, b, _⟩ :: rest => by
    rw [ElifClause.respanAll, ElifClause.bareAll, ElifClause.respan, Expr.respan_none,
      Block.respan_none b, ElifClause.respanAll_none rest]

end

theorem Program.respan_none (p : Program) : p.respan (fun _ => none) = p.bare := by
  rw [Program.respan, Program.bare, funext Stmt.respan_none]

/-! ## With the same spans -/

mutual

theorem Expr.respan_id : ∀ e : Expr, e.respan id = e
  | .string .. | .number .. | .boolean .. | .null _ | .name _ | .this _ | .super .. => rfl
  | .array es _ => by
    rw [Expr.respan, Expr.respanAll_id es]
    rfl
  | .unary _ e _ => by
    rw [Expr.respan, Expr.respan_id e]
    rfl
  | .binary _ l r _ | .logical _ l r _ => by
    rw [Expr.respan, Expr.respan_id l, Expr.respan_id r]
    rfl
  | .call callee args _ => by
    rw [Expr.respan, Expr.respan_id callee, Expr.respanAll_id args]
    rfl
  | .member o _ _ => by
    rw [Expr.respan, Expr.respan_id o]
    rfl
  | .setMember o _ v _ => by
    rw [Expr.respan, Expr.respan_id o, Expr.respan_id v]
    rfl
  | .index o i _ => by
    rw [Expr.respan, Expr.respan_id o, Expr.respan_id i]
    rfl
  | .setIndex o i v _ => by
    rw [Expr.respan, Expr.respan_id o, Expr.respan_id i, Expr.respan_id v]
    rfl
  | .assign _ v _ => by
    rw [Expr.respan, Expr.respan_id v]
    rfl

theorem Expr.respanAll_id : ∀ es : List Expr, Expr.respanAll id es = es
  | [] => rfl
  | e :: es => by rw [Expr.respanAll, Expr.respan_id e, Expr.respanAll_id es]

end

theorem Expr.respan_id_eq : Expr.respan id = id := funext Expr.respan_id

theorem Ident.respan_id_eq : Ident.respan id = id := rfl

theorem Simple.respan_id (s : Simple) : s.respan id = s := by
  cases s <;> simp [Simple.respan, Expr.respan_id_eq, Ident.respan_id_eq]

theorem Simple.respan_id_eq : Simple.respan id = id := funext Simple.respan_id

mutual

theorem Stmt.respan_id : ∀ s : Stmt, s.respan id = s
  | .simple s => by rw [Stmt.respan, Simple.respan_id s]
  | .func fn => by rw [Stmt.respan, FuncDef.respan_id fn]
  | .cls ⟨_, parent, methods, _⟩ => by
    rw [Stmt.respan, ClassDef.respan, FuncDef.respanAll_id methods, Ident.respan_id_eq,
      Option.map_id]
    rfl
  | .block b => by rw [Stmt.respan, Block.respan_id b]
  | .ifElse c b elifs e _ => by
    rw [Stmt.respan, Expr.respan_id, Block.respan_id b, ElifClause.respanAll_id elifs,
      Block.respanOption_id e]
    rfl
  | .whileLoop c b _ => by
    rw [Stmt.respan, Expr.respan_id, Block.respan_id b]
    rfl
  | .forLoop i c u b _ => by
    rw [Stmt.respan, Simple.respan_id_eq, Expr.respan_id_eq, Block.respan_id b, Option.map_id,
      Option.map_id]
    rfl
  | .breakLoop _ | .continueLoop _ => rfl
  | .ret e _ => by
    rw [Stmt.respan, Expr.respan_id_eq, Option.map_id]
    rfl
  | .tryCatch b p h _ => by
    rw [Stmt.respan, Block.respan_id b, Block.respan_id h]
    rfl
  | .throw e _ => by
    rw [Stmt.respan, Expr.respan_id]
    rfl

theorem Stmt.respanAll_id : ∀ body : List Stmt, Stmt.respanAll id body = body
  | [] => rfl
  | s :: rest => by rw [Stmt.respanAll, Stmt.respan_id s, Stmt.respanAll_id rest]

theorem Block.respan_id : ∀ b : Block, b.respan id = b
  | ⟨body, _⟩ => by
    rw [Block.respan, Stmt.respanAll_id body]
    rfl

theorem Block.respanOption_id : ∀ b : Option Block, Block.respanOption id b = b
  | some b => by rw [Block.respanOption, Block.respan_id b]
  | none => by rw [Block.respanOption]

theorem FuncDef.respan_id : ∀ fn : FuncDef, fn.respan id = fn
  | ⟨_, params, body, _⟩ => by
    rw [FuncDef.respan, Block.respan_id body, Ident.respan_id_eq, List.map_id]
    rfl

theorem FuncDef.respanAll_id : ∀ fs : List FuncDef, FuncDef.respanAll id fs = fs
  | [] => rfl
  | fn :: rest => by rw [FuncDef.respanAll, FuncDef.respan_id fn, FuncDef.respanAll_id rest]

theorem ElifClause.respanAll_id : ∀ cs : List ElifClause, ElifClause.respanAll id cs = cs
  | [] => rfl
  | ⟨c, b, _⟩ :: rest => by
    rw [ElifClause.respanAll, ElifClause.respan, Expr.respan_id, Block.respan_id b,
      ElifClause.respanAll_id rest]
    rfl

end

end Tern
