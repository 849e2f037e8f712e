import Tern.Proofs.Document.RoundTrip

/-!
# What can be loaded

A written tree is loaded only if every number in it is finite: a number without a decimal is
written as `null`, and the loader asks for a number. Loading a node loads all its children, so an
induction over the tree finds the number that is refused.

* `Node.Loads`: what is written for a node can be loaded;
* `Load.loads_children`: then so can what is written for its children;
* `Load.all_finite_of_loads`: then every number in the tree is finite.
-/

namespace Tern

/-! ## Reading what was written -/

namespace Load

open Spelling

theorem bind_eq_ok {α β : Type} {x : Load α} {f : α → Load β} {b : β} :
    (x >>= f) = .ok b ↔ ∃ a, x = .ok a ∧ f a = .ok b := by
  cases x with
  | ok a => simp
  | error e =>
    constructor
    · intro h
      cases h
    · rintro ⟨a, h, -⟩
      cases h

/-- Items that are read one after another are all read. -/
theorem items_read {α : Type} {write : α → Json} {read : Place → Option Json → Load α}
    {as bs : List α} {place : Place} {i : Nat}
    (h : itemsFrom place read i (as.map write) = .ok bs) :
    ∀ a ∈ as, ∃ place b, read place (some (write a)) = .ok b := by
  induction as generalizing i bs with
  | nil => simp
  | cons a as ih =>
    simp only [List.map_cons, itemsFrom, bind_eq_ok] at h
    obtain ⟨b, hb, bs, hbs, -⟩ := h
    intro a' ha'
    rcases List.mem_cons.mp ha' with rfl | ha'
    · exact ⟨_, b, hb⟩
    · exact ih hbs a' ha'

theorem list_read {α : Type} {write : α → Json} {read : Place → Option Json → Load α}
    {as bs : List α} {place : Place}
    (h : list place read (some (.array (as.map write))) = .ok bs) :
    ∀ a ∈ as, ∃ place b, read place (some (write a)) = .ok b :=
  items_read h

theorem optional_read {α β : Type} {write : α → Json}
    {read : Place → Option Json → Load β} {o : Option α} {o' : Option β} {place : Place}
    (hSome : ∀ a, write a ≠ .null)
    (h : Load.optional place read (some (Spelling.optional write o)) = .ok o') :
    ∀ a ∈ o, ∃ b, read place (some (write a)) = .ok b := by
  intro a ha
  rw [Option.mem_def.mp ha] at h
  unfold Load.optional Spelling.optional at h
  split at h
  · next hNone => cases hNone
  · next hNull => exact absurd (Option.some.inj hNull) (hSome a)
  · next hOther =>
    cases hOther
    rw [map_eq_pure_bind, bind_eq_ok] at h
    obtain ⟨b, hb, -⟩ := h
    exact ⟨b, hb⟩

end Load

/-! ## Nodes -/

/-- What is written for a node can be loaded at some place, by a loader that may go deep enough. -/
def Node.Loads : Node → Prop
  | .program p => ∃ depth p', Load.program depth (some (Spelling.document.program p)) = .ok p'
  | .stmt s => ∃ depth place s', Load.stmt depth place (some (Spelling.document.stmt s)) = .ok s'
  | .elif c =>
    ∃ depth place c', Load.elifClause depth place (some (Spelling.document.elifClause c)) = .ok c'
  | .expr e => ∃ depth place e', Load.expr depth place (some (Spelling.document.expr e)) = .ok e'

namespace Load

open Spelling

theorem loads_ident {place : Place} {id id' : Ident}
    (h : ident place (some (Spelling.document.ident id)) = .ok id') : (Node.ident id).Loads := by
  refine ⟨1, place, .name id', ?_⟩
  simp only [Spelling.expr]
  rw [expr]
  rw [Spelling.ident] at h ⊢
  simp [h]

theorem loads_block {depth : Nat} {place : Place} {b b' : Block}
    (h : block depth place (some (Spelling.document.block b)) = .ok b') : (Node.block b).Loads := by
  refine ⟨depth + 1, place, .block b', ?_⟩
  obtain ⟨body, s⟩ := b
  rw [stmt]
  simp only [Spelling.stmt, Spelling.block] at h ⊢
  simp [h]

theorem loads_func {depth : Nat} {place : Place} {f f' : FuncDef}
    (h : funcDef depth place (some (Spelling.document.funcDef f)) = .ok f') :
    (Node.stmt (.func f)).Loads := by
  refine ⟨depth + 1, place, .func f', ?_⟩
  obtain ⟨id, params, body, s⟩ := f
  rw [stmt]
  simp only [Spelling.stmt, Spelling.funcDef] at h ⊢
  simp [h]

theorem loads_exprs {depth : Nat} {place : Place} {es es' : List Expr}
    (h : list place (expr depth) (some (.array (Spelling.document.exprs es))) = .ok es') :
    ∀ e ∈ es, (Node.expr e).Loads := by
  rw [exprs_eq] at h
  intro e he
  obtain ⟨place, e', hRead⟩ := list_read h e he
  exact ⟨depth, place, e', hRead⟩

theorem loads_maybe {depth : Nat} {place : Place} {o o' : Option Expr}
    (h : Load.optional place (expr depth)
      (some (Spelling.optional Spelling.document.expr o)) = .ok o') :
    ∀ e ∈ o, (Node.expr e).Loads := by
  intro e he
  obtain ⟨e', hRead⟩ := optional_read expr_ne_null h e he
  exact ⟨depth, place, e', hRead⟩

/-! ### Children -/

theorem loads_children_expr {e : Expr} (h : (Node.expr e).Loads) :
    ∀ c ∈ Node.ofExpr e, c.Loads := by
  obtain ⟨depth, place, e', h⟩ := h
  cases depth with
  | zero =>
    rw [expr] at h
    cases h
  | succ depth =>
    have hExpr : ∀ {place e e'}, expr depth place (some (Spelling.document.expr e)) = .ok e' →
        (Node.expr e).Loads := fun h => ⟨_, _, _, h⟩
    rw [expr] at h
    cases e with rw [Spelling.expr] at h
    | string | number | boolean | null | name | this => simp [Node.ofExpr]
    | array es s =>
      simp [get_rawNode, bind_eq_ok] at h
      obtain ⟨_, hItems, -⟩ := h
      simpa [Node.ofExpr] using loads_exprs hItems
    | super m s =>
      simp [get_rawNode, bind_eq_ok] at h
      obtain ⟨_, hMethod, -⟩ := h
      simpa [Node.ofExpr] using loads_ident hMethod
    | unary op e s =>
      simp [get_rawNode, List.lookup_cons, bind_eq_ok] at h
      obtain ⟨_, _, _, hOperand, -⟩ := h
      simpa [Node.ofExpr] using hExpr hOperand
    | binary op l r s | logical op l r s =>
      simp [get_rawNode, List.lookup_cons, bind_eq_ok] at h
      obtain ⟨_, _, _, hLeft, _, hRight, -⟩ := h
      simpa [Node.ofExpr] using And.intro (hExpr hLeft) (hExpr hRight)
    | call f args s =>
      simp [get_rawNode, List.lookup_cons, bind_eq_ok] at h
      obtain ⟨_, hCallee, _, hArgs, -⟩ := h
      simpa [Node.ofExpr] using And.intro (hExpr hCallee) (loads_exprs hArgs)
    | member o m s =>
      simp [get_rawNode, List.lookup_cons, bind_eq_ok] at h
      obtain ⟨_, hObject, _, hMember, -⟩ := h
      simpa [Node.ofExpr] using And.intro (hExpr hObject) (loads_ident hMember)
    | setMember o m v s =>
      simp [get_rawNode, List.lookup_cons, bind_eq_ok] at h
      obtain ⟨_, hObject, _, hMember, _, hValue, -⟩ := h
      simpa [Node.ofExpr] using ⟨hExpr hObject, loads_ident hMember, hExpr hValue⟩
    | index o i s =>
      simp [get_rawNode, List.lookup_cons, bind_eq_ok] at h
      obtain ⟨_, hObject, _, hIndex, -⟩ := h
      simpa [Node.ofExpr] using And.intro (hExpr hObject) (hExpr hIndex)
    | setIndex o i v s =>
      simp [get_rawNode, List.lookup_cons, bind_eq_ok] at h
      obtain ⟨_, hObject, _, hIndex, _, hValue, -⟩ := h
      simpa [Node.ofExpr] using And.intro (hExpr hObject) (And.intro (hExpr hIndex) (hExpr hValue))
    | assign t v s =>
      simp [get_rawNode, List.lookup_cons, bind_eq_ok] at h
      obtain ⟨_, hTarget, _, hValue, -⟩ := h
      simpa [Node.ofExpr] using And.intro (loads_ident hTarget) (hExpr hValue)

theorem loads_children_block {b : Block} {depth : Nat} {place : Place} {b' : Block}
    (h : block depth place (some (Spelling.document.block b)) = .ok b') :
    ∀ s ∈ b.body, (Node.stmt s).Loads := by
  obtain ⟨body, s⟩ := b
  cases depth with
  | zero =>
    rw [block] at h
    cases h
  | succ depth =>
    rw [block] at h
    simp [Spelling.block, get_rawNode, bind_eq_ok, stmts_eq] at h
    obtain ⟨_, hBody, -⟩ := h
    intro s hs
    obtain ⟨place, s', hRead⟩ := list_read hBody s hs
    exact ⟨depth, place, s', hRead⟩

theorem loads_children_func {f : FuncDef} {depth : Nat} {place : Place} {f' : FuncDef}
    (h : funcDef depth place (some (Spelling.document.funcDef f)) = .ok f') :
    ∀ c ∈ Node.ofStmt (.func f), c.Loads := by
  obtain ⟨id, params, body, s⟩ := f
  cases depth with
  | zero =>
    rw [funcDef] at h
    cases h
  | succ depth =>
    rw [funcDef] at h
    simp [Spelling.funcDef, get_rawNode, List.lookup_cons, bind_eq_ok] at h
    obtain ⟨_, hId, _, hParams, _, hBody, -⟩ := h
    have hEach : ∀ p ∈ params, (Node.ident p).Loads := by
      intro p hp
      obtain ⟨place, p', hRead⟩ := list_read hParams p hp
      exact loads_ident hRead
    simp only [Node.ofStmt, List.cons_append, List.forall_mem_cons, List.forall_mem_append,
      List.forall_mem_map]
    exact ⟨loads_ident hId, hEach, loads_block hBody, List.forall_mem_nil _⟩

theorem loads_children_elif {c : ElifClause} {depth : Nat} {place : Place} {c' : ElifClause}
    (h : elifClause depth place (some (Spelling.document.elifClause c)) = .ok c') :
    ∀ n ∈ (Node.elif c).children, n.Loads := by
  obtain ⟨condition, body, s⟩ := c
  cases depth with
  | zero =>
    rw [elifClause] at h
    cases h
  | succ depth =>
    rw [elifClause] at h
    simp [Spelling.elifClause, get_rawNode, List.lookup_cons, bind_eq_ok] at h
    obtain ⟨_, hCondition, _, hBody, -⟩ := h
    simp only [Node.children, List.forall_mem_cons]
    exact ⟨⟨_, _, _, hCondition⟩, loads_block hBody, List.forall_mem_nil _⟩

theorem loads_children_stmt {s : Stmt} (h : (Node.stmt s).Loads) :
    ∀ c ∈ Node.ofStmt s, c.Loads := by
  obtain ⟨depth, place, s', h⟩ := h
  cases depth with
  | zero =>
    rw [stmt] at h
    cases h
  | succ depth =>
    have hExpr : ∀ {place e e'}, expr depth place (some (Spelling.document.expr e)) = .ok e' →
        (Node.expr e).Loads := fun h => ⟨_, _, _, h⟩
    rw [stmt] at h
    cases s with
    | simple s =>
      rw [Spelling.stmt] at h
      cases s with rw [Spelling.simple] at h
      | var id v s =>
        simp [get_rawNode, List.lookup_cons, bind_eq_ok] at h
        obtain ⟨_, hId, _, hValue, -⟩ := h
        simpa [Node.ofStmt, Node.ofSimple] using And.intro (loads_ident hId) (loads_maybe hValue)
      | const id v s =>
        simp [get_rawNode, List.lookup_cons, bind_eq_ok] at h
        obtain ⟨_, hId, _, hValue, -⟩ := h
        simpa [Node.ofStmt, Node.ofSimple] using And.intro (loads_ident hId) (hExpr hValue)
      | expr e s =>
        simp [get_rawNode, bind_eq_ok] at h
        obtain ⟨_, hValue, -⟩ := h
        simpa [Node.ofStmt, Node.ofSimple] using hExpr hValue
    | func f =>
      obtain ⟨id, params, body, s⟩ := f
      rw [Spelling.stmt] at h
      simp [Spelling.funcDef, bind_eq_ok] at h
      obtain ⟨_, hRead, -⟩ := h
      exact loads_children_func (f := ⟨id, params, body, s⟩) hRead
    | cls c =>
      obtain ⟨id, parent, methods, s⟩ := c
      rw [Spelling.stmt] at h
      simp [get_rawNode, List.lookup_cons, bind_eq_ok, funcDefs_eq] at h
      obtain ⟨_, hId, _, hMethods, _, hParent, -⟩ := h
      have hEach : ∀ f ∈ methods, (Node.stmt (.func f)).Loads := by
        intro f hf
        obtain ⟨place, f', hRead⟩ := list_read hMethods f hf
        exact loads_func hRead
      have hAbove : ∀ id ∈ parent, (Node.ident id).Loads := by
        intro id hid
        obtain ⟨id', hRead⟩ := optional_read (fun id => node_ne_null _ _ _) hParent id hid
        exact loads_ident hRead
      simp only [Node.ofStmt, List.cons_append, List.forall_mem_cons, List.forall_mem_append,
        List.forall_mem_map]
      exact ⟨loads_ident hId, by simpa using hAbove, hEach⟩
    | block b =>
      obtain ⟨body, s⟩ := b
      rw [Spelling.stmt] at h
      simp [Spelling.block, bind_eq_ok] at h
      obtain ⟨_, hRead, -⟩ := h
      simpa [Node.ofStmt] using loads_children_block (b := ⟨body, s⟩) hRead
    | ifElse c b elifs e s =>
      rw [Spelling.stmt] at h
      simp [get_rawNode, List.lookup_cons, bind_eq_ok, elifClauses_eq,
        optionalBlock_eq] at h
      obtain ⟨_, hCondition, _, hThen, _, hElifs, _, hElse, -⟩ := h
      have hEach : ∀ c ∈ elifs, (Node.elif c).Loads := by
        intro c hc
        obtain ⟨place, c', hRead⟩ := list_read hElifs c hc
        exact ⟨depth, place, c', hRead⟩
      have hLast : ∀ b ∈ e, (Node.block b).Loads := by
        intro b hb
        obtain ⟨b', hRead⟩ := optional_read block_ne_null hElse b hb
        exact loads_block hRead
      simp only [Node.ofStmt, List.cons_append, List.forall_mem_cons, List.forall_mem_append,
        List.forall_mem_map]
      exact ⟨hExpr hCondition, loads_block hThen, hEach, by simpa using hLast⟩
    | whileLoop c b s =>
      rw [Spelling.stmt] at h
      simp [get_rawNode, List.lookup_cons, bind_eq_ok] at h
      obtain ⟨_, hCondition, _, hBody, -⟩ := h
      simpa [Node.ofStmt] using And.intro (hExpr hCondition) (loads_block hBody)
    | forLoop i c u b s =>
      rw [Spelling.stmt] at h
      simp [get_rawNode, List.lookup_cons, bind_eq_ok] at h
      obtain ⟨_, hStart, _, hCondition, _, hUpdate, _, hBody, -⟩ := h
      have hFirst : ∀ i' ∈ i, (Node.stmt (.simple i')).Loads := by
        intro i' hi
        obtain ⟨_, hRead⟩ := optional_read simple_ne_null hStart i' hi
        obtain ⟨s', hRead, -⟩ := bind_eq_ok.mp hRead
        exact ⟨_, _, s', hRead⟩
      simp only [Node.ofStmt, List.forall_mem_append, List.forall_mem_singleton]
      refine ⟨⟨⟨by simpa using hFirst, ?_⟩, ?_⟩, loads_block hBody⟩
      · simpa using loads_maybe hCondition
      · simpa using loads_maybe hUpdate
    | breakLoop s | continueLoop s => simp [Node.ofStmt]
    | ret e s =>
      rw [Spelling.stmt] at h
      simp [get_rawNode, bind_eq_ok] at h
      obtain ⟨_, hValue, -⟩ := h
      simpa [Node.ofStmt] using loads_maybe hValue
    | tryCatch b p k s =>
      rw [Spelling.stmt] at h
      simp [get_rawNode, List.lookup_cons, bind_eq_ok] at h
      obtain ⟨_, hTried, _, hParam, _, hHandler, -⟩ := h
      simpa [Node.ofStmt] using ⟨loads_block hTried, loads_ident hParam, loads_block hHandler⟩
    | throw e s =>
      rw [Spelling.stmt] at h
      simp [get_rawNode, bind_eq_ok] at h
      obtain ⟨_, hValue, -⟩ := h
      simpa [Node.ofStmt] using hExpr hValue

theorem loads_children {n : Node} (h : n.Loads) : ∀ c ∈ n.children, c.Loads := by
  cases n with
  | program p =>
    obtain ⟨depth, p', h⟩ := h
    obtain ⟨body, s⟩ := p
    rw [program] at h
    simp [Spelling.program, get_rawNode, bind_eq_ok, stmts_eq] at h
    obtain ⟨_, hBody, -⟩ := h
    refine List.forall_mem_map.mpr fun s hs => ?_
    obtain ⟨place, s', hRead⟩ := list_read hBody s hs
    exact ⟨depth, place, s', hRead⟩
  | stmt s => exact loads_children_stmt h
  | elif c =>
    obtain ⟨_, _, _, h⟩ := h
    exact loads_children_elif h
  | expr e => exact loads_children_expr h

/-! ### Numbers -/

theorem finite_of_loads {n : Node} (h : n.Loads) : n.Finite := by
  rintro x s rfl
  refine Classical.byContradiction fun hx => ?_
  obtain ⟨depth, place, e', h⟩ := h
  cases depth with
  | zero =>
    rw [expr] at h
    cases h
  | succ depth =>
    rw [expr] at h
    simp [Spelling.expr, get_rawNode, bind_eq_ok, Number.written_null hx, number] at h

theorem all_finite_of_loads {P : Node → Prop} {n : Node} (hTree : n.All P) (h : n.Loads) :
    n.All Node.Finite := by
  induction hTree with
  | mk here below ih =>
    exact .mk (finite_of_loads h) fun c hc => ih c hc (loads_children h c hc)

/-- If a written document is loaded, what is written for its program can be loaded. -/
theorem loads_of_document {depth : Nat} {d d' : Document} (h : document depth d.toJson = .ok d') :
    (Node.program d.program).Loads := by
  simp [document, Document.toJson, members, List.lookup_cons, bind_eq_ok] at h
  obtain ⟨-, -, _, -, p, hProgram, -⟩ := h
  exact ⟨depth, p, hProgram⟩

end Load

end Tern
