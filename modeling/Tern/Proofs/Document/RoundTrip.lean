import Tern.Proofs.Document.Recordable

/-!
# Loading written documents

Loading undoes writing. The text of a document is read as the JSON value it was written from,
and the loader, which goes through that value node by node, finds each part where the writer put
it. How deep the loader goes is counted in nodes: an expression takes one step for each level of
the tree, a statement with a block in it two.

* `Load.stmt_written` and the lemmas around it: every node is loaded as it was written;
* `load_text`: a document is loaded from its text.
-/

namespace Tern

/-! ## Loading nodes -/

namespace Load

open Spelling

@[simp] theorem ok_bind {α β : Type} (a : α) (f : α → Load β) : (Except.ok a >>= f) = f a := rfl

@[simp] theorem pure_eq {α : Type} (a : α) : (pure a : Load α) = .ok a := rfl

/-- What the loader sees of a written node. -/
def rawNode (kind : String) (fields : List (Wide × Json)) (span : Option Span) : RawNode :=
  ⟨kind, (.text "type", .string kind) :: (fields ++ spanMember span)⟩

@[simp] theorem kind_rawNode (kind : String) (fields : List (Wide × Json))
    (span : Option Span) : (rawNode kind fields span).kind = kind := rfl

variable {kind : String} {fields : List (Wide × Json)} {s : Option Span}

@[simp] theorem node_written (place : Place) :
    node place (some (Spelling.document.node kind fields s)) = .ok (rawNode kind fields s) := by
  rw [node_eq]
  rfl

/-- The loader goes on with what it sees of a written node. -/
@[simp ↓] theorem node_bind {α : Type} (place : Place) (f : RawNode → Load α) :
    (node place (some (Spelling.document.node kind fields s)) >>= f) =
      f (rawNode kind fields s) := by
  rw [node_written, ok_bind]

@[simp] theorem nodeOf_written (place : Place) :
    nodeOf kind place (some (Spelling.document.node kind fields s)) =
      .ok (rawNode kind fields s) := by
  simp [nodeOf]

/-- A part of a written node, under its name. -/
theorem get_rawNode {name : String} {j : Json} (hName : name ≠ "type")
    (hField : fields.lookup (.text name) = some j) : (rawNode kind fields s).get? name = some j := by
  have hLater : (Wide.text name == .text "type") = false := by simpa using hName
  unfold RawNode.get? rawNode
  rw [List.lookup_cons, hLater]
  dsimp only
  rw [List.lookup_append, hField, Option.some_or]

theorem count_written {n : Nat} (hn : Number.RecordableCount n) :
    count? (some (.number (.ofCount n))) = some n :=
  Decimal.toCount_ofCount hn

theorem position_written (place : Place) {p : Position} (hp : p.Recordable) :
    position place (some (Spelling.position p)) = .ok p := by
  have hLine := count_written hp.line
  have hColumn := count_written hp.column
  simp [position, Spelling.position, members, List.lookup_cons, hLine, hColumn]

theorem span_written (hSpan : ∀ sp ∈ s, sp.start.Recordable ∧ sp.stop.Recordable)
    (hFields : .text "span" ∉ fields.map (·.1)) : span (rawNode kind fields s) = .ok s := by
  have hNone : fields.lookup (.text "span") = none := by
    refine List.lookup_eq_none_iff.mpr fun m hm => ?_
    have hKey : .text "span" ≠ m.1 := fun h => hFields (h ▸ List.mem_map_of_mem hm)
    simpa using hKey
  have hGet : (rawNode kind fields s).get? "span" = (spanMember s).lookup (.text "span") := by
    unfold RawNode.get? rawNode
    rw [List.lookup_cons, List.lookup_append, hNone]
    rfl
  unfold span
  rw [hGet]
  cases s with
  | none => rfl
  | some sp =>
    obtain ⟨hStart, hStop⟩ := hSpan sp rfl
    have hStartRead := fun place => position_written place hStart
    have hStopRead := fun place => position_written place hStop
    simp [spanMember, Spelling.document, members, List.lookup_cons, hStartRead, hStopRead]

theorem ident_written {id : Ident} (place : Place)
    (hSpan : ∀ s ∈ id.span, s.start.Recordable ∧ s.stop.Recordable) :
    ident place (some (Spelling.document.ident id)) = .ok id := by
  have hRead : span (rawNode "Identifier" [("name", .string id.name)] id.span) = .ok id.span :=
    span_written hSpan (by simp)
  have hName : (rawNode "Identifier" [("name", .string id.name)] id.span).get? "name" =
      some (.string id.name) := get_rawNode (by decide) rfl
  simp [ident, Spelling.ident, hRead, hName, string]

theorem itemsFrom_written {α : Type} {write : α → Json} {read : Place → Option Json → Load α}
    {as : List α} (place : Place) (i : Nat)
    (h : ∀ a ∈ as, ∀ place, read place (some (write a)) = .ok a) :
    itemsFrom place read i (as.map write) = .ok as := by
  induction as generalizing i with
  | nil => rfl
  | cons a as ih =>
    obtain ⟨hFirst, hRest⟩ := List.forall_mem_cons.mp h
    simp [itemsFrom, hFirst, ih (i + 1) hRest]

theorem list_written {α : Type} {write : α → Json} {read : Place → Option Json → Load α}
    {as : List α} (place : Place) (h : ∀ a ∈ as, ∀ place, read place (some (write a)) = .ok a) :
    list place read (some (.array (as.map write))) = .ok as :=
  itemsFrom_written place 0 h

theorem optional_written {α : Type} {write : α → Json} {read : Place → Option Json → Load α}
    {o : Option α} (place : Place) (hSome : ∀ a, write a ≠ .null)
    (h : ∀ a ∈ o, ∀ place, read place (some (write a)) = .ok a) :
    Load.optional place read (some (Spelling.optional write o)) = .ok o := by
  cases o with
  | none => rfl
  | some a =>
    have hRead := h a rfl place
    unfold Load.optional Spelling.optional
    split
    · next hNone => cases hNone
    · next hNull => exact absurd (Option.some.inj hNull) (hSome a)
    · next hOther =>
      cases hOther
      rw [hRead]
      rfl

theorem operator_unary (place : Place) (op : UnaryOp) :
    operator place UnaryOp.all UnaryOp.text (some (.string op.text)) = .ok op := by
  cases op <;> rfl

theorem operator_binary (place : Place) (op : BinaryOp) :
    operator place BinaryOp.all BinaryOp.text (some (.string op.text)) = .ok op := by
  cases op <;> rfl

theorem operator_logical (place : Place) (op : LogicalOp) :
    operator place LogicalOp.all LogicalOp.text (some (.string op.text)) = .ok op := by
  cases op <;> rfl

/-! ### Expressions -/

/-- An expression of at most `levels` levels is loaded as it was written. -/
theorem expr_written {levels depth : Nat} {e : Expr} (hAll : Node.All Node.Recordable (.expr e))
    (hFits : Node.FitsIn levels (.expr e)) (hDepth : levels ≤ depth) (place : Place) :
    expr depth place (some (Spelling.document.expr e)) = .ok e := by
  induction levels generalizing depth e place with
  | zero => cases hFits
  | succ levels ih =>
    obtain ⟨depth, rfl⟩ : ∃ d, depth = d + 1 := ⟨depth - 1, by omega⟩
    have hSpan : ∀ kind fields, .text "span" ∉ fields.map (·.1) →
        span (rawNode kind fields e.span) = .ok e.span :=
      fun kind fields hFields => span_written hAll.here.span hFields
    have hExpr : ∀ e', .expr e' ∈ Node.ofExpr e → ∀ place,
        expr depth place (some (Spelling.document.expr e')) = .ok e' :=
      fun e' he' place => ih (hAll.child he') (hFits.child he') (by omega) place
    have hIdent : ∀ id, .ident id ∈ Node.ofExpr e → ∀ place,
        ident place (some (Spelling.document.ident id)) = .ok id :=
      fun id hid place => ident_written place (hAll.child hid).here.span
    have hList : ∀ es, (∀ e' ∈ es, .expr e' ∈ Node.ofExpr e) → ∀ place,
        list place (expr depth) (some (.array (Spelling.document.exprs es))) = .ok es := by
      intro es hes place
      rw [exprs_eq]
      exact list_written place fun e' he' => hExpr e' (hes e' he')
    rw [expr]
    cases e with (dsimp only [Expr.span] at hSpan; rw [Spelling.expr])
    | string v s => simp [hSpan, get_rawNode, string]
    | number v s =>
      obtain ⟨d, hd, hText⟩ := (hAll.here.finite v s rfl).exists_decimal
      have hBack := Decimal.toFloat_ofFloat hd
      simp [hSpan, get_rawNode, number, hText, hBack]
    | boolean v s => simp [hSpan, get_rawNode, boolean]
    | null s => simp [hSpan]
    | array es s =>
      have hItems := hList es fun e he => List.mem_map_of_mem he
      simp [hSpan, get_rawNode, hItems]
    | name id =>
      have hId := ident_written place hAll.here.span
      simp [Spelling.ident] at hId ⊢
      simp [hId]
    | this s => simp [hSpan]
    | super m s =>
      have hMethod := hIdent m (by simp [Node.ofExpr])
      simp [hSpan, get_rawNode, hMethod]
    | unary op e s =>
      have hOperand := hExpr e (by simp [Node.ofExpr])
      simp [hSpan, get_rawNode, List.lookup_cons, hOperand, operator_unary]
    | binary op l r s =>
      have hLeft := hExpr l (by simp [Node.ofExpr])
      have hRight := hExpr r (by simp [Node.ofExpr])
      simp [hSpan, get_rawNode, List.lookup_cons, hLeft, hRight,
        operator_binary]
    | logical op l r s =>
      have hLeft := hExpr l (by simp [Node.ofExpr])
      have hRight := hExpr r (by simp [Node.ofExpr])
      simp [hSpan, get_rawNode, List.lookup_cons, hLeft, hRight,
        operator_logical]
    | call f args s =>
      have hCallee := hExpr f (by simp [Node.ofExpr])
      have hArgs := hList args fun e he => by simp [Node.ofExpr, he]
      simp [hSpan, get_rawNode, List.lookup_cons, hCallee, hArgs]
    | member o m s =>
      have hObject := hExpr o (by simp [Node.ofExpr])
      have hMember := hIdent m (by simp [Node.ofExpr])
      simp [hSpan, get_rawNode, List.lookup_cons, hObject, hMember]
    | setMember o m v s =>
      have hObject := hExpr o (by simp [Node.ofExpr])
      have hMember := hIdent m (by simp [Node.ofExpr])
      have hValue := hExpr v (by simp [Node.ofExpr])
      simp [hSpan, get_rawNode, List.lookup_cons, hObject, hMember, hValue]
    | index o i s =>
      have hObject := hExpr o (by simp [Node.ofExpr])
      have hIndex := hExpr i (by simp [Node.ofExpr])
      simp [hSpan, get_rawNode, List.lookup_cons, hObject, hIndex]
    | setIndex o i v s =>
      have hObject := hExpr o (by simp [Node.ofExpr])
      have hIndex := hExpr i (by simp [Node.ofExpr])
      have hValue := hExpr v (by simp [Node.ofExpr])
      simp [hSpan, get_rawNode, List.lookup_cons, hObject, hIndex, hValue]
    | assign t v s =>
      have hTarget := hIdent t (by simp [Node.ofExpr])
      have hValue := hExpr v (by simp [Node.ofExpr])
      simp [hSpan, get_rawNode, List.lookup_cons, hTarget, hValue]

/-! ### Statements -/

theorem block_written {depth : Nat} {b : Block} (hAll : Node.All Node.Recordable (.block b))
    (hBody : ∀ s ∈ b.body, ∀ place,
      stmt depth place (some (Spelling.document.stmt s)) = .ok s) (place : Place) :
    block (depth + 1) place (some (Spelling.document.block b)) = .ok b := by
  obtain ⟨body, s⟩ := b
  have hSpan : ∀ kind fields, .text "span" ∉ fields.map (·.1) → span (rawNode kind fields s) = .ok s :=
    fun kind fields hFields => span_written hAll.here.span hFields
  have hList : ∀ place, list place (stmt depth) (some (.array (Spelling.document.stmts body))) =
      .ok body := by
    intro place
    rw [stmts_eq]
    exact list_written place hBody
  rw [block]
  simp [Spelling.block, hSpan, get_rawNode, hList]

theorem funcDef_written {depth : Nat} {f : FuncDef}
    (hAll : Node.All Node.Recordable (.stmt (.func f)))
    (hBody : ∀ place, block depth place (some (Spelling.document.block f.body)) = .ok f.body)
    (place : Place) :
    funcDef (depth + 1) place (some (Spelling.document.funcDef f)) = .ok f := by
  obtain ⟨id, params, body, s⟩ := f
  have hSpan : ∀ kind fields, .text "span" ∉ fields.map (·.1) → span (rawNode kind fields s) = .ok s :=
    fun kind fields hFields => span_written hAll.here.span hFields
  have hId : ∀ place, ident place (some (Spelling.document.ident id)) = .ok id := fun place =>
    ident_written place
      (hAll.child (c := .ident id) (by simp [Node.children, Node.ofStmt])).here.span
  have hParams : ∀ place, list place ident (some (.array (params.map Spelling.document.ident))) =
      .ok params := by
    refine fun place => list_written place fun p hp place => ident_written place ?_
    exact (hAll.child (c := .ident p)
      (by simp [Node.children, Node.ofStmt, Node.ident, hp])).here.span
  rw [funcDef]
  simp [Spelling.funcDef, hSpan, get_rawNode, List.lookup_cons, hId, hParams, hBody]

theorem elifClause_written {depth : Nat} {c : ElifClause}
    (hAll : Node.All Node.Recordable (.elif c))
    (hCondition : ∀ place,
      expr depth place (some (Spelling.document.expr c.condition)) = .ok c.condition)
    (hBody : ∀ place, block depth place (some (Spelling.document.block c.body)) = .ok c.body)
    (place : Place) :
    elifClause (depth + 1) place (some (Spelling.document.elifClause c)) = .ok c := by
  obtain ⟨condition, body, s⟩ := c
  have hSpan : ∀ kind fields, .text "span" ∉ fields.map (·.1) → span (rawNode kind fields s) = .ok s :=
    fun kind fields hFields => span_written hAll.here.span hFields
  rw [elifClause]
  simp [Spelling.elifClause, hSpan, get_rawNode, List.lookup_cons, hCondition, hBody]

theorem node_ne_null (kind : String) (fields : List (Wide × Json)) (span : Option Span) :
    Spelling.document.node kind fields span ≠ .null := by
  rw [node_eq]
  simp

theorem expr_ne_null (e : Expr) : Spelling.document.expr e ≠ .null := by
  cases e <;> exact node_ne_null _ _ _

theorem simple_ne_null (s : Simple) : Spelling.document.simple s ≠ .null := by
  cases s <;> exact node_ne_null _ _ _

theorem block_ne_null (b : Block) : Spelling.document.block b ≠ .null := by
  obtain ⟨body, s⟩ := b
  exact node_ne_null _ _ _

/-- What is loaded as it was written, of at most `levels` levels. A function or a block that
stands as a statement takes two steps into the document. -/
structure WrittenWithin (levels : Nat) : Prop where
  stmt : ∀ {depth s}, Node.All Node.Recordable (.stmt s) → Node.FitsIn levels (.stmt s) →
    2 * levels ≤ depth → ∀ place, stmt depth place (some (Spelling.document.stmt s)) = .ok s
  block : ∀ {depth b}, Node.All Node.Recordable (.block b) → Node.FitsIn levels (.block b) →
    2 * levels ≤ depth + 1 → ∀ place, block depth place (some (Spelling.document.block b)) = .ok b
  funcDef : ∀ {depth f}, Node.All Node.Recordable (.stmt (.func f)) →
    Node.FitsIn levels (.stmt (.func f)) → 2 * levels ≤ depth + 1 → ∀ place,
    funcDef depth place (some (Spelling.document.funcDef f)) = .ok f
  elifClause : ∀ {depth c}, Node.All Node.Recordable (.elif c) → Node.FitsIn levels (.elif c) →
    2 * levels ≤ depth + 1 → ∀ place,
    elifClause depth place (some (Spelling.document.elifClause c)) = .ok c

theorem stmt_written {levels depth : Nat} (ih : WrittenWithin levels) {s : Stmt}
    (hAll : Node.All Node.Recordable (.stmt s)) (hFits : Node.FitsIn (levels + 1) (.stmt s))
    (hFunc : ∀ f, s = .func f → ∀ place,
      funcDef depth place (some (Spelling.document.funcDef f)) = .ok f)
    (hBlock : ∀ b, s = .block b → ∀ place,
      block depth place (some (Spelling.document.block b)) = .ok b)
    (hDepth : 2 * (levels + 1) ≤ depth + 1) (place : Place) :
    stmt (depth + 1) place (some (Spelling.document.stmt s)) = .ok s := by
  have hSpan : ∀ kind fields, .text "span" ∉ fields.map (·.1) →
      span (rawNode kind fields s.span) = .ok s.span :=
    fun kind fields hFields => span_written hAll.here.span hFields
  have hExpr : ∀ e, .expr e ∈ Node.ofStmt s → ∀ place,
      expr depth place (some (Spelling.document.expr e)) = .ok e :=
    fun e he place => expr_written (hAll.child he) (hFits.child he) (by omega) place
  have hMaybe : ∀ o : Option Expr, (∀ e ∈ o, .expr e ∈ Node.ofStmt s) → ∀ place,
      Load.optional place (expr depth) (some (Spelling.optional Spelling.document.expr o)) =
        .ok o :=
    fun o ho place => optional_written place expr_ne_null fun e he => hExpr e (ho e he)
  have hIdent : ∀ id, .ident id ∈ Node.ofStmt s → ∀ place,
      ident place (some (Spelling.document.ident id)) = .ok id :=
    fun id hid place => ident_written place (hAll.child hid).here.span
  have hBody : ∀ b, .block b ∈ Node.ofStmt s → ∀ place,
      block depth place (some (Spelling.document.block b)) = .ok b :=
    fun b hb => ih.block (hAll.child hb) (hFits.child hb) (by omega)
  rw [stmt]
  cases s with dsimp only [Stmt.span] at hSpan
  | simple s =>
    rw [Spelling.stmt]
    cases s with (dsimp only [Simple.span] at hSpan; rw [Spelling.simple])
    | var id v s =>
      have hId := hIdent id (by simp [Node.ofStmt, Node.ofSimple])
      have hValue := hMaybe v fun e he => by
        simp [Node.ofStmt, Node.ofSimple, Option.mem_def.mp he]
      simp [hSpan, get_rawNode, List.lookup_cons, hId, hValue]
    | const id v s =>
      have hId := hIdent id (by simp [Node.ofStmt, Node.ofSimple])
      have hValue := hExpr v (by simp [Node.ofStmt, Node.ofSimple])
      simp [hSpan, get_rawNode, List.lookup_cons, hId, hValue]
    | expr e s =>
      have hValue := hExpr e (by simp [Node.ofStmt, Node.ofSimple])
      simp [hSpan, get_rawNode, hValue]
  | func f =>
    have hDef := hFunc f rfl place
    obtain ⟨id, params, body, s⟩ := f
    rw [Spelling.stmt]
    simp [Spelling.funcDef] at hDef ⊢
    simp [hDef]
  | cls c =>
    obtain ⟨id, parent, methods, s⟩ := c
    have hId := hIdent id (by simp [Node.ofStmt])
    have hParent : ∀ place, Load.optional place ident
        (some (Spelling.optional Spelling.document.ident parent)) = .ok parent := by
      refine fun place => optional_written place (fun id => node_ne_null _ _ _) fun id hid => ?_
      exact hIdent id (by simp [Node.ofStmt, Option.mem_def.mp hid])
    have hMethods : ∀ place, list place (funcDef depth)
        (some (.array (Spelling.document.funcDefs methods))) = .ok methods := by
      intro place
      rw [funcDefs_eq]
      refine list_written place fun f hf => ?_
      have hMem : .stmt (.func f) ∈ Node.ofStmt (.cls ⟨id, parent, methods, s⟩) := by
        simp [Node.ofStmt, hf]
      exact ih.funcDef (hAll.child hMem) (hFits.child hMem) (by omega)
    rw [Spelling.stmt]
    simp [hSpan, get_rawNode, List.lookup_cons, hId, hParent, hMethods]
  | block b =>
    have hDef := hBlock b rfl place
    obtain ⟨body, s⟩ := b
    rw [Spelling.stmt]
    simp [Spelling.block] at hDef ⊢
    simp [hDef]
  | ifElse c b elifs e s =>
    have hCondition := hExpr c (by simp [Node.ofStmt])
    have hThen := hBody b (by simp [Node.ofStmt])
    have hElifs : ∀ place, list place (elifClause depth)
        (some (.array (Spelling.document.elifClauses elifs))) = .ok elifs := by
      intro place
      rw [elifClauses_eq]
      refine list_written place fun a ha => ?_
      have hMem : .elif a ∈ Node.ofStmt (.ifElse c b elifs e s) := by simp [Node.ofStmt, ha]
      exact ih.elifClause (hAll.child hMem) (hFits.child hMem) (by omega)
    have hElse : ∀ place, Load.optional place (block depth)
        (some (Spelling.document.optionalBlock e)) = .ok e := by
      intro place
      rw [optionalBlock_eq]
      refine optional_written place block_ne_null fun b hb => ?_
      exact hBody b (by simp [Node.ofStmt, Option.mem_def.mp hb])
    rw [Spelling.stmt]
    simp [hSpan, get_rawNode, List.lookup_cons, hCondition, hThen, hElifs, hElse]
  | whileLoop c b s =>
    have hCondition := hExpr c (by simp [Node.ofStmt])
    have hLoop := hBody b (by simp [Node.ofStmt])
    rw [Spelling.stmt]
    simp [hSpan, get_rawNode, List.lookup_cons, hCondition, hLoop]
  | forLoop i c u b s =>
    have hStart : ∀ place, Load.optional place (forStart (stmt depth))
        (some (Spelling.optional Spelling.document.simple i)) = .ok i := by
      refine fun place => optional_written place simple_ne_null fun a ha place => ?_
      have hMem : .stmt (.simple a) ∈ Node.ofStmt (.forLoop i c u b s) := by
        simp [Node.ofStmt, Option.mem_def.mp ha]
      have hRead : stmt depth place (some (Spelling.document.simple a)) = .ok (.simple a) :=
        ih.stmt (hAll.child hMem) (hFits.child hMem) (by omega) place
      simp [forStart, hRead]
    have hCondition := hMaybe c fun e he => by simp [Node.ofStmt, Option.mem_def.mp he]
    have hUpdate := hMaybe u fun e he => by simp [Node.ofStmt, Option.mem_def.mp he]
    have hLoop := hBody b (by simp [Node.ofStmt])
    rw [Spelling.stmt]
    simp [hSpan, get_rawNode, List.lookup_cons, hStart, hCondition, hUpdate, hLoop]
  | breakLoop s =>
    rw [Spelling.stmt]
    simp [hSpan]
  | continueLoop s =>
    rw [Spelling.stmt]
    simp [hSpan]
  | ret e s =>
    have hValue := hMaybe e fun e he => by simp [Node.ofStmt, Option.mem_def.mp he]
    rw [Spelling.stmt]
    simp [hSpan, get_rawNode, hValue]
  | tryCatch b p h s =>
    have hTried := hBody b (by simp [Node.ofStmt])
    have hParam := hIdent p (by simp [Node.ofStmt])
    have hHandler := hBody h (by simp [Node.ofStmt])
    rw [Spelling.stmt]
    simp [hSpan, get_rawNode, List.lookup_cons, hTried, hParam, hHandler]
  | throw e s =>
    have hValue := hExpr e (by simp [Node.ofStmt])
    rw [Spelling.stmt]
    simp [hSpan, get_rawNode, hValue]

/-- Everything is loaded as it was written. -/
theorem writtenWithin (levels : Nat) : WrittenWithin levels := by
  induction levels with
  | zero =>
    constructor
    all_goals
      intro _ _ _ hFits
      cases hFits
  | succ levels ih =>
    have hBlock : ∀ {depth b}, Node.All Node.Recordable (.block b) →
        Node.FitsIn (levels + 1) (.block b) → 2 * (levels + 1) ≤ depth + 1 → ∀ place,
        block depth place (some (Spelling.document.block b)) = .ok b := by
      intro depth b hAll hFits hDepth
      obtain ⟨depth, rfl⟩ : ∃ d, depth = d + 1 := ⟨depth - 1, by omega⟩
      refine block_written hAll fun s hs => ?_
      have hMem : .stmt s ∈ (Node.block b).children := List.mem_map_of_mem hs
      exact ih.stmt (hAll.child hMem) (hFits.child hMem) (by omega)
    have hFunc : ∀ {depth f}, Node.All Node.Recordable (.stmt (.func f)) →
        Node.FitsIn (levels + 1) (.stmt (.func f)) → 2 * (levels + 1) ≤ depth + 1 → ∀ place,
        funcDef depth place (some (Spelling.document.funcDef f)) = .ok f := by
      intro depth f hAll hFits hDepth
      obtain ⟨depth, rfl⟩ : ∃ d, depth = d + 1 := ⟨depth - 1, by omega⟩
      have hMem : .block f.body ∈ (Node.stmt (.func f)).children := by
        simp [Node.children, Node.ofStmt]
      exact funcDef_written hAll (ih.block (hAll.child hMem) (hFits.child hMem) (by omega))
    refine ⟨?_, hBlock, hFunc, ?_⟩
    · intro depth s hAll hFits hDepth
      obtain ⟨depth, rfl⟩ : ∃ d, depth = d + 1 := ⟨depth - 1, by omega⟩
      refine stmt_written ih hAll hFits ?_ ?_ hDepth
      · rintro f rfl
        exact hFunc hAll hFits hDepth
      · rintro b rfl
        exact hBlock hAll hFits hDepth
    · intro depth c hAll hFits hDepth
      obtain ⟨depth, rfl⟩ : ∃ d, depth = d + 1 := ⟨depth - 1, by omega⟩
      have hCondition : .expr c.condition ∈ (Node.elif c).children := by simp [Node.children]
      have hBody : .block c.body ∈ (Node.elif c).children := by simp [Node.children]
      refine elifClause_written hAll ?_ ?_
      · exact expr_written (hAll.child hCondition) (hFits.child hCondition) (by omega)
      · exact ih.block (hAll.child hBody) (hFits.child hBody) (by omega)

theorem program_written {levels depth : Nat} {p : Program}
    (hAll : Node.All Node.Recordable (.program p)) (hFits : Node.FitsIn levels (.program p))
    (hDepth : 2 * levels ≤ depth) :
    program depth (some (Spelling.document.program p)) = .ok p := by
  cases levels with
  | zero => cases hFits
  | succ levels =>
    obtain ⟨body, s⟩ := p
    have hSpan : ∀ kind fields, .text "span" ∉ fields.map (·.1) → span (rawNode kind fields s) = .ok s :=
      fun kind fields hFields => span_written hAll.here.span hFields
    have hBody : ∀ place, list place (stmt depth)
        (some (.array (Spelling.document.stmts body))) = .ok body := by
      intro place
      rw [stmts_eq]
      refine list_written place fun a ha => ?_
      have hMem : .stmt a ∈ (Node.program ⟨body, s⟩).children := List.mem_map_of_mem ha
      exact (writtenWithin levels).stmt (hAll.child hMem) (hFits.child hMem) (by omega)
    rw [program]
    simp [Spelling.program, hSpan, get_rawNode, hBody]

/-! ### Documents -/

theorem metadata_written {notes : List (Wide × Wide)}
    (hKeys : ∀ m ∈ notes, m.1 ≠ reservedKey) :
    metadata (notes.map fun m => (m.1, .string m.2)) = .ok notes := by
  induction notes with
  | nil => rfl
  | cons m rest ih =>
    obtain ⟨hFirst, hRest⟩ := List.forall_mem_cons.mp hKeys
    simp [metadata, string, hFirst, ih hRest]

theorem version_written :
    ((Decimal.ofNat documentVersion).toFloat == Float.ofNat documentVersion) = true := by
  decide +kernel

/-- A document is loaded as it was written, if the loader may go deep enough. -/
theorem document_written {levels depth : Nat} {d : Document}
    (hKeys : ∀ m ∈ Json.arrange d.metadata, m.1 ≠ reservedKey)
    (hAll : Node.All Node.Recordable (.program d.program))
    (hFits : Node.FitsIn levels (.program d.program)) (hDepth : 2 * levels ≤ depth) :
    document depth d.toJson = .ok ⟨Json.arrange d.metadata, d.program⟩ := by
  have hFormat : checkFormat (some (.string documentFormat)) = .ok () := by
    simp [checkFormat]
  have hVersion : checkVersion (some (.ofNat documentVersion)) = .ok () := by
    simp [checkVersion, Json.ofNat, version_written]
  have hNotes := metadata_written hKeys
  have hProgram := program_written hAll hFits hDepth
  simp [document, Document.toJson, members, List.lookup_cons, hFormat, hVersion, hNotes, hProgram]

end Load

/-- The metadata of a document without the reserved key is loaded as it is arranged. -/
theorem Load.keys_arranged {notes : List (Wide × Wide)}
    (hNodup : (notes.map (·.1)).Nodup) (hKeys : Load.reservedKey ∉ notes.map (·.1)) :
    ∀ m ∈ Json.arrange notes, m.1 ≠ Load.reservedKey := by
  intro m hm hKey
  exact hKeys (List.mem_map.mpr ⟨m, (Json.arrange_perm hNodup).mem_iff.mp hm, hKey⟩)

/-- The text of a document with printable nodes is read as the JSON it was printed from. -/
theorem Document.parse_text {d : Document} (hAll : Node.All Node.Printable (.program d.program)) :
    Json.parse? d.text = some d.toJson :=
  Json.parse_pretty (Document.canonical hAll)

/-- A document that the loader may go deep enough for is loaded from its text. -/
theorem Document.load_of_fits {d : Document} (hNodup : (d.metadata.map (·.1)).Nodup)
    (hKeys : Load.reservedKey ∉ d.metadata.map (·.1))
    (hAll : Node.All Node.Recordable (.program d.program))
    (hFits : Node.FitsIn (Document.maxDepth / 2) (.program d.program)) :
    Document.load d.text = .ok ⟨Json.arrange d.metadata, d.program⟩ := by
  rw [Document.load, Document.parse_text (hAll.mono fun _ h => h.toPrintable)]
  exact Load.document_written (Load.keys_arranged hNodup hKeys) hAll hFits (by decide)

/-- Loading undoes writing: the text of a document with recordable nodes is JSON of the format
and version that the loader asks for, and a loader that may go deep enough gives back the same
notes, in the order of objects, and the same program, spans included. -/
theorem load_text (d : Document) (hNodup : (d.metadata.map (·.1)).Nodup)
    (hKeys : Load.reservedKey ∉ d.metadata.map (·.1))
    (hAll : Node.All Node.Recordable (.program d.program)) :
    ∃ j notes, Json.parse? d.text = some j ∧
      j.get? "format" = some (.string "tern-ast") ∧ j.get? "version" = some (.ofNat 1) ∧
      notes = Json.arrange d.metadata ∧ notes.Perm d.metadata ∧
      (∃ levels, ∀ depth ≥ levels, Load.document depth j = .ok ⟨notes, d.program⟩) ∧
      (Node.FitsIn (Document.maxDepth / 2) (.program d.program) →
        Document.load d.text = .ok ⟨notes, d.program⟩) := by
  have hParse := Document.parse_text (hAll.mono fun _ h => h.toPrintable)
  have hPerm := Json.arrange_perm hNodup
  have hAllowed := Load.keys_arranged hNodup hKeys
  refine ⟨d.toJson, _, hParse, rfl, rfl, rfl, hPerm, ?_, ?_⟩
  · obtain ⟨levels, hFits⟩ := hAll.exists_fits
    exact ⟨2 * levels, fun depth hDepth => Load.document_written hAllowed hAll hFits hDepth⟩
  · exact Document.load_of_fits hNodup hKeys hAll

/-- The assignment `x = 2.5;`, with the span of the statement and no other. -/
def Program.fraction : Program :=
  ⟨[.simple (.expr (.assign ⟨"x", none⟩ (.number 2.5 none) none) (some ⟨⟨1, 1⟩, ⟨1, 9⟩⟩))], none⟩

/-- Notes out of order come back in order, and a node has its span back if it had one. -/
theorem load_text_fraction :
    Document.load (Document.text ⟨[("note", "\"a\"\n"), ("7", "")], .fraction⟩) =
      .ok ⟨[("7", ""), ("note", "\"a\"\n")], .fraction⟩ := by
  have hPosition : ∀ column, 0 < column → column < Decimal.exactBound →
      Position.Recordable ⟨1, column⟩ := fun column hPos hLt =>
    ⟨.of_lt Nat.zero_lt_one (by decide : 1 < Decimal.exactBound), .of_lt hPos hLt⟩
  have hParts : Binary.ofFloat? 2.5 = some ⟨false, 5629499534213120, -51⟩ := by decide +kernel
  have hSigned : ¬Number.IsNegativeZero 2.5 := by
    rintro ⟨e, h⟩
    rw [hParts] at h
    cases h
  have hAll : Node.All Node.Recordable (.program .fraction) := by
    refine .mk ⟨⟨by simp [Node.span, Program.fraction], nofun⟩, nofun⟩ ?_
    rintro s (_ | ⟨_, _, _, _⟩)
    refine .mk ⟨⟨?_, nofun⟩, nofun⟩ ?_
    · rintro span ⟨⟩
      exact ⟨hPosition 1 (by decide) (by decide), hPosition 9 (by decide) (by decide)⟩
    rintro e (_ | ⟨_, _, _, _⟩)
    refine .mk ⟨⟨by simp [Node.span, Expr.span], nofun⟩, nofun⟩ ?_
    rintro c (_ | ⟨_, _ | ⟨_, _, _, _⟩⟩)
    · exact .mk ⟨⟨by simp [Node.span, Expr.span, Node.ident], nofun⟩, nofun⟩
        (by simp [Node.ident, Node.children, Node.ofExpr])
    · refine .mk ⟨⟨by simp [Node.span, Expr.span], ?_⟩, ?_⟩ (by simp [Node.children, Node.ofExpr])
      · rintro x s ⟨⟩
        exact hSigned
      · rintro x s ⟨⟩
        exact ⟨_, hParts⟩
  obtain ⟨_, _, -, -, -, rfl, -, -, hLoad⟩ :=
    load_text ⟨[("note", "\"a\"\n"), ("7", "")], .fraction⟩ (by decide) (by decide) hAll
  have hOrder : Json.arrange [(Wide.text "note", Wide.text "\"a\"\n"), (.text "7", .text "")] =
      [(.text "7", .text ""), (.text "note", .text "\"a\"\n")] := by
    decide +kernel
  rw [← hOrder]
  exact hLoad (by decide +kernel)

end Tern
