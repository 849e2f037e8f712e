import Tern.Proofs.Machine.Constants

/-!
# Declarations stay in their scope

A statement may declare a name in the scope in which it stands. Whatever else runs inside of it,
functions and closures, blocks, loops and handlers, stands in a scope of its own, so no scope
that was there before gains a name.

* `sealedScope`: the discipline of code that does not stand in a scope and so leaves its names
  alone;
* `next_undeclaring`: what declares nothing leaves the names of its own scope alone as well;
* `statement_declares_at_most`: the names of all scopes over a statement.
-/

namespace Tern

/-! ## Code in other scopes -/

/-- A scope has the same names before and after. What runs stands in some other scope. -/
def sealedScope (i : ScopeId) : Discipline where
  Inv m := i < m.heap.scopes.size
  Grows m m' := Heap.SameNames i m.heap m'.heap
  Val _ _ := True
  Site := Unit
  At _ _ env := env.current ≠ i
  Code _ _ _ := True

section

variable {cfg : Settings} {i : ScopeId} {m m' : Machine}

theorem next_sealed (hInv : i < m.heap.scopes.size) (more : List Scope)
    (hScopes : m'.heap.scopes = m.heap.scopes ++ more) : (sealedScope i).Next m m' := by
  refine ⟨?_, Heap.sameNames_append more hInv hScopes⟩
  change i < m'.heap.scopes.size
  rw [hScopes, size_append]
  exact Nat.lt_of_lt_of_le hInv (Nat.le_add_right _ _)

theorem next_sealed_same (hInv : i < m.heap.scopes.size)
    (hScopes : m'.heap.scopes = m.heap.scopes) : (sealedScope i).Next m m' :=
  next_sealed hInv [] (by rw [hScopes, Array.appendList_nil])

theorem next_sealed_bind {s : ScopeId} {name : String} {b : Binding}
    (hInv : i < m.heap.scopes.size) (hOther : i ≠ s ∨ m.heap.Bound s name) :
    (sealedScope i).Next m (m.withHeap (m.heap.bind s name b)) := by
  refine ⟨?_, Heap.sameNames_bind hOther⟩
  change i < (m.heap.scopes.modify s _).size
  rw [Array.size_modify]
  exact hInv

theorem next_sealed_withClass (hInv : i < m.heap.scopes.size) (env : Env) (c : ClassDef)
    (parent : Option Class) :
    (sealedScope i).Next m (m.withHeap (m.heap.withClass env c parent)) :=
  next_sealed hInv (Heap.superScope parent) rfl

theorem sealedScope_trans {m₁ m₂ m₃ : Machine} (h : (sealedScope i).Next m₁ m₂)
    (h' : (sealedScope i).Next m₂ m₃) : (sealedScope i).Next m₁ m₃ :=
  ⟨h'.1, h.2.trans h'.2⟩

/-- The scopes of a call are new. -/
theorem next_sealed_enterCall {closure : Closure} {self : Option ObjectId} {args : List Value}
    {env : Env} (hInv : i < m.heap.scopes.size)
    (h : Eval.enterCall closure self args m = .ok env m') :
    (sealedScope i).Next m m' ∧ env.current ≠ i := by
  cases self with
  | none =>
    rw [Eval.enterCall_func] at h
    cases h
    exact ⟨next_sealed hInv [_] rfl, Nat.ne_of_gt hInv⟩
  | some o =>
    rw [Eval.enterCall_method] at h
    cases h
    exact ⟨next_sealed hInv [[("this", ⟨.object o, true⟩)],
      Eval.paramScope closure.definition args] rfl, Nat.ne_of_gt (Nat.lt_succ_of_lt hInv)⟩

theorem next_sealed_defineClass {env : Env} (hInv : i < m.heap.scopes.size)
    (hAt : env.current ≠ i) (c : ClassDef) :
    (sealedScope i).Next m ((Eval.defineClass env c).final m) := by
  rcases Eval.final_defineClass env c m with hSame | ⟨parent, -, -, hFinal | ⟨-, hFinal⟩⟩
  · rw [hSame]
    exact next_sealed_same hInv rfl
  · rw [hFinal]
    exact next_sealed_withClass hInv env c parent
  · rw [hFinal]
    have hClass := next_sealed_withClass hInv env c parent
    exact sealedScope_trans hClass (next_sealed_bind hClass.1 (.inl hAt.symm))

theorem sealedScope_lawful (cfg : Settings) (i : ScopeId) : (sealedScope i).Lawful cfg where
  refl m := Heap.sameNames_refl i m.heap
  trans h₁ h₂ := h₁.trans h₂
  val_grows _ _ := trivial
  at_grows _ h := h
  code_part _ _ := trivial
  plain _ := trivial
  lookup _ _ _ := trivial
  superMethod _ _ _ _ _ _ := trivial
  element _ _ _ := trivial
  member _ _ _ := trivial
  host := Discipline.trusts_of_all (fun _ _ => trivial) cfg.host
  foreign _ _ := trivial
  console _ _ := trivial
  quiet hInv hHeap _ _ := next_sealed_same hInv (congrArg Heap.scopes hHeap)
  countNan hInv := next_sealed_same hInv rfl
  newArray hInv _ := ⟨next_sealed_same hInv rfl, trivial⟩
  newObject hInv _ := ⟨next_sealed_same hInv rfl, trivial, fun _ _ => trivial⟩
  setField hInv _ _ := next_sealed_same hInv rfl
  setElement hInv _ _ := next_sealed_same hInv rfl
  newScope hInv _ _ := ⟨next_sealed hInv [_] rfl, Nat.ne_of_gt hInv⟩
  declare hInv hAt _ _ _ := next_sealed_bind hInv (.inl (Ne.symm hAt))
  assign hInv _ _ _ hTarget := next_sealed_bind hInv (.inr (Heap.bound_of_assignTarget hTarget))
  newFunc hInv _ _ := ⟨next_sealed_same hInv rfl, trivial⟩
  defineClass hInv hAt _ := next_sealed_defineClass hInv hAt _
  call hInv _ _ _ _ hEnter := by
    obtain ⟨hNext, hAt⟩ := next_sealed_enterCall hInv hEnter
    exact ⟨hNext.1, ⟨(), .top, hAt, fun _ _ => trivial⟩, fun m₂ hm₂ =>
      sealedScope_trans hNext hm₂⟩

theorem sealedScope_level : (sealedScope i).Level where
  inv _ h := h
  next _ _ h := h

theorem sealedScope_loose : (sealedScope i).Loose where
  val _ _ := trivial
  assign hInv hTarget := next_sealed_bind hInv (.inr (Heap.bound_of_assignTarget hTarget))

end

/-! ## Code in the scope itself -/

/-- The name that a statement declares. -/
def Stmt.declared? : Stmt → Option String
  | .simple (.var id _ _) | .simple (.const id _ _) => some id.name
  | .func f => some f.id.name
  | .cls c => some c.id.name
  | _ => none

/-- The tasks that declare nothing in the scope in which they stand. -/
def Task.Undeclaring : Task → Prop
  | .execute _ _ s => s.declared? = none
  | .executeSimple _ _ s => (Stmt.simple s).declared? = none
  | .executeAll .. => False
  | _ => True

section

variable {cfg : Settings} {i : ScopeId} {m₀ m : Machine}

/-- The computation leaves the names of the scope alone. -/
abbrev Seals (i : ScopeId) {α : Type} (m : Machine) (x : Eval α) : Prop :=
  (sealedScope i).Holds m m x fun _ _ => True

theorem seals_of_next {α : Type} {x : Eval α} (h : (sealedScope i).Next m (x.final m)) :
    Seals i m x :=
  Discipline.holds_of_next (fun _ _ => trivial) (fun _ => trivial) (fun _ _ => trivial) h

/-- Entering a scope, from wherever. -/
theorem holds_enter_sealed (hm : (sealedScope i).Next m m) (env : Env) (names : Scope) :
    (sealedScope i).Holds m m (Eval.enter env names) fun _ env' => env'.current ≠ i :=
  ⟨rfl, next_sealed hm.1 [names] rfl, Nat.ne_of_gt hm.1⟩

section

variable (fuel : Nat)

/-- Statements in another scope. -/
theorem seals_body (hInv : i < m.heap.scopes.size) (depth : Nat) {env : Env}
    (hAt : env.current ≠ i) (body : List Stmt) :
    Seals i m (run cfg fuel (.executeAll depth env body)) :=
  seals_of_next ((sealedScope_lawful cfg i).next_run fuel hInv
    ⟨(), .top, hAt, fun _ _ => trivial⟩)

/-- A block in a scope of its own. -/
theorem seals_block (hInv : i < m.heap.scopes.size) (depth : Nat) (env : Env) (names : Scope)
    (body : List Stmt) :
    Seals i m (do
      let env ← Eval.enter env names
      run cfg fuel (.executeAll depth env body)) := by
  have L := sealedScope_lawful cfg i
  refine L.twin_seq (holds_enter_sealed (L.here hInv) env names) fun env' m₁ hm₁ hAt => ?_
  exact seals_body fuel hm₁.1 depth hAt body

/-- The handler of a thrown value. -/
theorem seals_handler (hInv : i < m.heap.scopes.size) (depth : Nat) (env : Env) (t : Thrown)
    (param : Ident) (handler : Block) :
    Seals i m (do
      let text ← Eval.display cfg depth t.value
      Eval.debug cfg ("caught " ++ text ++ " in '" ++ param.name ++ "'")
      let catchEnv ← Eval.enter env [(param.name, ⟨t.value, false⟩)]
      run cfg fuel (.executeAll depth catchEnv handler.body)) := by
  have L := sealedScope_lawful cfg i
  refine L.twin_seq (Discipline.holds_display (L.here hInv) _ _) fun text m₁ hm₁ _ => ?_
  refine L.twin_seq (L.holds_debug hm₁.1 _) fun _ m₂ hm₂ _ => ?_
  exact seals_block fuel hm₂.1 depth env _ handler.body

variable (ih : ∀ t m, Task.Undeclaring t → i < m.heap.scopes.size → Seals i m (run cfg fuel t))
include ih

/-- A value on which nothing further depends that could declare a name. -/
theorem seals_value {α : Type} (hInv : i < m.heap.scopes.size) (depth : Nat) (env : Env)
    (e : Expr) (f : Value → α) :
    Seals i m (do
      let v ← run cfg fuel (.evaluate depth env e)
      pure (f v)) := by
  have L := sealedScope_lawful cfg i
  refine L.twin_seq (ih (.evaluate depth env e) m trivial hInv) fun v m₁ hm₁ _ => ?_
  exact Discipline.twin_pure (L.here hm₁.1) trivial

theorem seals_forLoop (hInv : i < m.heap.scopes.size) (depth : Nat) (env : Env)
    (start : Option Simple) (condition update : Option Expr) (body : Block)
    (span : Option Span) :
    Seals i m (Step.stmt cfg (run cfg fuel) depth env
      (.forLoop start condition update body span)) := by
  have L := sealedScope_lawful cfg i
  refine L.twin_seq (holds_enter_sealed (L.here hInv) env []) fun loopEnv m₁ hm₁ hAt => ?_
  have hRounds : ∀ m, i < m.heap.scopes.size →
      Seals i m (run cfg fuel (.runFor (depth + 1) loopEnv condition update body)) :=
    fun m hInv => ih _ m trivial hInv
  cases start with
  | none => exact hRounds m₁ hm₁.1
  | some start =>
    have hStart : Seals i m₁ (run cfg fuel (.execute (depth + 1) loopEnv (.simple start))) :=
      seals_of_next (L.next_run fuel hm₁.1 ⟨(), .top, hAt, trivial⟩)
    refine L.twin_seq hStart fun c m₂ hm₂ _ => ?_
    cases c with
    | normal => exact hRounds m₂ hm₂.1
    | _ => exact Discipline.twin_pure (L.here hm₂.1) trivial

theorem seals_stmt (hInv : i < m.heap.scopes.size) (depth : Nat) (env : Env) {s : Stmt}
    (hNone : s.declared? = none) : Seals i m (Step.stmt cfg (run cfg fuel) depth env s) := by
  have L := sealedScope_lawful cfg i
  cases s with
  | simple s => exact ih (.executeSimple (depth + 1) env s) m hNone hInv
  | func | cls => cases hNone
  | block b => exact seals_block fuel hInv _ env [] b.body
  | ifElse condition body elifs otherwise span =>
    refine L.twin_seq (ih (.evaluate (depth + 1) env condition) m trivial hInv) ?_
    intro v m₁ hm₁ _
    refine Discipline.twin_ite (fun _ => seals_block fuel hm₁.1 _ env [] body.body) fun _ => ?_
    exact ih (.executeElifs (depth + 1) env elifs otherwise) m₁ trivial hm₁.1
  | whileLoop condition body span =>
    exact ih (.runWhile (depth + 1) env condition body) m trivial hInv
  | forLoop start condition update body span =>
    exact seals_forLoop fuel ih hInv depth env start condition update body span
  | breakLoop | continueLoop => exact Discipline.twin_pure (L.here hInv) trivial
  | ret value span =>
    cases value with
    | none => exact Discipline.twin_pure (L.here hInv) trivial
    | some e => exact seals_value fuel ih hInv _ env e _
  | tryCatch body param handler span =>
    refine L.twin_seq (holds_enter_sealed (L.here hInv) env []) fun tryEnv m₁ hm₁ hAt => ?_
    refine L.twin_seq (seals_body fuel hm₁.1 _ hAt body.body) fun c m₂ hm₂ _ => ?_
    cases c with
    | throw t => exact seals_handler fuel hm₂.1 _ env t param handler
    | _ => exact Discipline.twin_pure (L.here hm₂.1) trivial
  | throw e span => exact seals_value fuel ih hInv _ env e _

theorem seals_executeElifs (hInv : i < m.heap.scopes.size) (depth : Nat) (env : Env)
    (clauses : List ElifClause) (otherwise : Option Block) :
    Seals i m (Step.executeElifs (run cfg fuel) depth env clauses otherwise) := by
  have L := sealedScope_lawful cfg i
  cases clauses with
  | nil =>
    cases otherwise with
    | none => exact Discipline.twin_pure (L.here hInv) trivial
    | some b => exact seals_block fuel hInv _ env [] b.body
  | cons clause rest =>
    refine L.twin_seq (ih (.evaluate depth env clause.condition) m trivial hInv) ?_
    intro v m₁ hm₁ _
    refine Discipline.twin_ite (fun _ => seals_block fuel hm₁.1 _ env [] clause.body.body) ?_
    exact fun _ => ih (.executeElifs depth env rest otherwise) m₁ trivial hm₁.1

theorem seals_runWhile (hInv : i < m.heap.scopes.size) (depth : Nat) (env : Env)
    (condition : Expr) (body : Block) :
    Seals i m (Step.runWhile (run cfg fuel) depth env condition body) := by
  have L := sealedScope_lawful cfg i
  refine L.twin_seq (ih (.evaluate depth env condition) m trivial hInv) fun v m₁ hm₁ _ => ?_
  refine Discipline.twin_ite (fun _ => ?_) fun _ => Discipline.twin_pure (L.here hm₁.1) trivial
  refine L.twin_seq (holds_enter_sealed (L.here hm₁.1) env []) fun bodyEnv m₂ hm₂ hAt => ?_
  refine L.twin_seq (seals_body fuel hm₂.1 depth hAt body.body) fun c m₃ hm₃ _ => ?_
  cases c with
  | breakLoop | ret | throw => exact Discipline.twin_pure (L.here hm₃.1) trivial
  | normal | continueLoop => exact ih (.runWhile depth env condition body) m₃ trivial hm₃.1

theorem seals_runFor (hInv : i < m.heap.scopes.size) (depth : Nat) (env : Env)
    (condition update : Option Expr) (body : Block) :
    Seals i m (Step.runFor (run cfg fuel) depth env condition update body) := by
  have L := sealedScope_lawful cfg i
  have hCondition : Seals i m (Step.holds (run cfg fuel) depth env condition) := by
    cases condition with
    | none => exact Discipline.twin_pure (L.here hInv) trivial
    | some e => exact seals_value fuel ih hInv _ env e _
  have hRounds : ∀ m, i < m.heap.scopes.size →
      Seals i m (run cfg fuel (.runFor depth env condition update body)) :=
    fun m hInv => ih _ m trivial hInv
  refine L.twin_seq hCondition fun b m₁ hm₁ _ => ?_
  refine Discipline.twin_ite (fun _ => ?_) fun _ => Discipline.twin_pure (L.here hm₁.1) trivial
  refine L.twin_seq (holds_enter_sealed (L.here hm₁.1) env []) fun bodyEnv m₂ hm₂ hAt => ?_
  refine L.twin_seq (seals_body fuel hm₂.1 depth hAt body.body) fun c m₃ hm₃ _ => ?_
  cases c with
  | breakLoop | ret | throw => exact Discipline.twin_pure (L.here hm₃.1) trivial
  | normal | continueLoop =>
    cases update with
    | none => exact hRounds m₃ hm₃.1
    | some e =>
      refine L.twin_seq (ih (.evaluate depth env e) m₃ trivial hm₃.1) fun v m₄ hm₄ _ => ?_
      exact hRounds m₄ hm₄.1

end

/-- What declares nothing leaves the names of every scope alone, its own included. -/
theorem next_undeclaring (fuel : Nat) {t : Task} (ht : t.Undeclaring)
    (hInv : i < m.heap.scopes.size) : (sealedScope i).Next m ((run cfg fuel t).final m) := by
  have L := sealedScope_lawful cfg i
  induction fuel generalizing t m with
  | zero => exact L.here hInv
  | succ fuel ih =>
    have hParts : ∀ t m, Task.Undeclaring t → i < m.heap.scopes.size →
        Seals i m (run cfg fuel t) := fun t m ht hInv => seals_of_next (ih ht hInv)
    cases t with
    | evaluate depth env e =>
      have hExpr : Task.OfExpr (.evaluate depth env e) := trivial
      exact L.next_ofExpr sealedScope_loose sealedScope_level (fuel + 1) hExpr hInv
    | evaluateAll depth env es =>
      have hExpr : Task.OfExpr (.evaluateAll depth env es) := trivial
      exact L.next_ofExpr sealedScope_loose sealedScope_level (fuel + 1) hExpr hInv
    | apply => exact L.next_run (fuel + 1) hInv ⟨trivial, fun _ _ => trivial⟩
    | applyFunc => exact L.next_run (fuel + 1) hInv ⟨trivial, fun _ _ => trivial⟩
    | execute depth env s =>
      have hStmt : Seals i m (if cfg.isFull depth then Eval.overflow
          else Step.stmt cfg (run cfg fuel) depth env s) :=
        Discipline.twin_ite (fun _ => Discipline.twin_overflow (L.here hInv)) fun _ =>
          seals_stmt fuel hParts hInv depth env ht
      have hNext := hStmt.next
      rw [← Eval.final_guarded s.span] at hNext
      exact hNext
    | executeSimple depth env s =>
      cases s with
      | var | const => cases ht
      | expr e span => exact (seals_value fuel hParts hInv depth env e _).next
    | executeAll => exact ht.elim
    | executeElifs depth env clauses otherwise =>
      exact (seals_executeElifs fuel hParts hInv depth env clauses otherwise).next
    | runWhile depth env condition body =>
      exact (seals_runWhile fuel hParts hInv depth env condition body).next
    | runFor depth env condition update body =>
      exact (seals_runFor fuel hParts hInv depth env condition update body).next

end

/-! ## Declarations -/

section

variable {cfg : Settings} {i : ScopeId} {name : String} {m m' : Machine}

/-- The scope has no new name other than the given one. -/
def GainsOnly (i : ScopeId) (name : String) (m m' : Machine) : Prop :=
  ∀ x, m'.heap.Bound i x → m.heap.Bound i x ∨ x = name

theorem gainsOnly_of_next (h : (sealedScope i).Next m m') : GainsOnly i name m m' :=
  fun x hx => .inl ((h.2 x).mp hx)

theorem gainsOnly_after {m₁ : Machine} (h : (sealedScope i).Next m m₁)
    (h' : GainsOnly i name m₁ m') : GainsOnly i name m m' :=
  fun x hx => (h' x hx).imp (h.2 x).mp id

theorem gainsOnly_bind (env : Env) (b : Binding) :
    GainsOnly i name m (m.withHeap (m.heap.bind env.current name b)) :=
  fun _ hx => (Heap.bound_bind.mp hx).imp id fun h => h.2.2

theorem gainsOnly_declare (env : Env) (v : Value) (constant : Bool)
    (hInv : i < m.heap.scopes.size) :
    GainsOnly i name m ((Eval.declare env name v constant).final m) := by
  rcases Eval.final_declare env name v constant m with hSame | ⟨-, hFinal⟩
  · rw [hSame]
    exact gainsOnly_of_next (next_sealed_same hInv rfl)
  · rw [hFinal]
    exact gainsOnly_bind env _

theorem gainsOnly_defineClass (env : Env) (c : ClassDef) (hInv : i < m.heap.scopes.size) :
    GainsOnly i c.id.name m ((Eval.defineClass env c).final m) := by
  rcases Eval.final_defineClass env c m with hSame | ⟨parent, -, -, hFinal | ⟨-, hFinal⟩⟩
  · rw [hSame]
    exact gainsOnly_of_next (next_sealed_same hInv rfl)
  · rw [hFinal]
    exact gainsOnly_of_next (next_sealed_withClass hInv env c parent)
  · rw [hFinal]
    exact gainsOnly_after (next_sealed_withClass hInv env c parent) (gainsOnly_bind env _)

/-- A name that is declared once its value is there. -/
theorem gainsOnly_value {fuel depth : Nat} {env : Env} (e : Expr) (constant : Bool)
    (hInv : i < m.heap.scopes.size) :
    GainsOnly i name m ((do
      let v ← run cfg fuel (.evaluate depth env e)
      Eval.declare env name v constant
      pure .normal : Eval Completion).final m) := by
  have hValue : (sealedScope i).Next m ((run cfg fuel (.evaluate depth env e)).final m) :=
    next_undeclaring fuel (t := .evaluate depth env e) trivial hInv
  rw [Eval.final_bind]
  cases hRun : run cfg fuel (.evaluate depth env e) m with
  | error s m' =>
    rw [Eval.final_of_error hRun] at hValue
    exact gainsOnly_of_next hValue
  | ok v m' =>
    rw [Eval.final_of_ok hRun] at hValue
    dsimp only
    rw [Eval.final_bind_pure]
    exact gainsOnly_after hValue (gainsOnly_declare env v constant hValue.1)

theorem gainsOnly_executeSimple {fuel depth : Nat} {env : Env} {s : Simple}
    (hName : (Stmt.simple s).declared? = some name) (hInv : i < m.heap.scopes.size) :
    GainsOnly i name m ((run cfg fuel (.executeSimple depth env s)).final m) := by
  cases fuel with
  | zero => exact gainsOnly_of_next (next_sealed_same hInv rfl)
  | succ fuel =>
    change GainsOnly i name m ((Step.executeSimple (run cfg fuel) depth env s).final m)
    cases s with
    | var id value span =>
      cases hName
      cases value with
      | none =>
        rw [Step.executeSimple, Eval.final_bind_pure]
        exact gainsOnly_declare env _ _ hInv
      | some e => exact gainsOnly_value e false hInv
    | const id e span =>
      cases hName
      exact gainsOnly_value e true hInv
    | expr => cases hName

/-- A statement adds at most the name that it declares, to whatever scope. -/
theorem gainsOnly_execute {fuel depth : Nat} {env : Env} {s : Stmt}
    (hName : s.declared? = some name) (hInv : i < m.heap.scopes.size) :
    GainsOnly i name m ((run cfg fuel (.execute depth env s)).final m) := by
  have hSame : GainsOnly i name m m := gainsOnly_of_next (next_sealed_same hInv rfl)
  cases fuel with
  | zero => exact hSame
  | succ fuel =>
    change GainsOnly i name m ((Eval.guarded s.span (if cfg.isFull depth then Eval.overflow
      else Step.stmt cfg (run cfg fuel) depth env s)).final m)
    rw [Eval.final_guarded]
    split
    · exact hSame
    · cases s with
      | simple s => exact gainsOnly_executeSimple hName hInv
      | func f =>
        cases hName
        rw [Step.stmt, Eval.final_bind_pure]
        have hNew : (sealedScope i).Next m (m.withHeap (m.heap.newClosure ⟨f, env, false⟩).2) :=
          next_sealed_same hInv rfl
        exact gainsOnly_after hNew (gainsOnly_declare env _ _ hNew.1)
      | cls c =>
        cases hName
        rw [Step.stmt, Eval.final_bind_pure]
        exact gainsOnly_defineClass env c hInv
      | _ => cases hName

end

/-! ## Statements -/

/-- The tasks that a statement can be, at the top level or elsewhere. -/
theorem final_statement {cfg : Settings} {fuel depth : Nat} {env : Env} {s : Stmt}
    {m m' : Machine} (h : m' = (execute cfg fuel depth env s).final m ∨
      m' = (executeTop cfg env s).final m) :
    (∃ fuel depth, m' = (run cfg fuel (.execute depth env s)).final m) ∨
      s.declared? = none ∧ ∃ e, m' = (run cfg cfg.fuel (.evaluate 0 env e)).final m := by
  rcases h with rfl | rfl
  · exact .inl ⟨fuel, depth, rfl⟩
  · rw [final_executeTop]
    by_cases hExpr : ∃ e span, s = .simple (.expr e span)
    · obtain ⟨e, span, rfl⟩ := hExpr
      exact .inr ⟨rfl, e, rfl⟩
    · rw [Stmt.topTask_eq fun e span h => hExpr ⟨e, span, h⟩]
      exact .inl ⟨cfg.fuel, 0, rfl⟩

/-- The names of a scope that is there before a statement runs, at the top level or elsewhere,
whatever the statement does and however it ends. A scope other than the one in which the
statement stands has the same names afterwards. That one keeps its names and gains at most the
name that the statement declares, and none if it declares none. An expression leaves the names of
all scopes as they are. -/
theorem statement_declares_at_most (cfg : Settings) (fuel depth : Nat) (env : Env) (m : Machine)
    (i : ScopeId) (hThere : i < m.heap.scopes.size) :
    (∀ s m', m' = (execute cfg fuel depth env s).final m ∨ m' = (executeTop cfg env s).final m →
      (i ≠ env.current → ∀ name, m'.heap.Bound i name ↔ m.heap.Bound i name) ∧
      (∀ name, m.heap.Bound i name → m'.heap.Bound i name) ∧
      ∀ name, m'.heap.Bound i name → m.heap.Bound i name ∨ s.declared? = some name) ∧
    ∀ e name, ((evaluate cfg fuel depth env e).final m).heap.Bound i name ↔
      m.heap.Bound i name := by
  have hExpr : ∀ fuel depth e,
      (sealedScope i).Next m ((run cfg fuel (.evaluate depth env e)).final m) := by
    intro fuel depth e
    have hNone : Task.Undeclaring (.evaluate depth env e) := trivial
    exact next_undeclaring fuel hNone hThere
  refine ⟨fun s m' hEnd => ?_, fun e => (hExpr fuel depth e).2⟩
  rcases final_statement hEnd with ⟨fuel, depth, rfl⟩ | ⟨hNone, e, rfl⟩
  · refine ⟨fun hOther => ?_, fun name hBound => ?_, fun name hBound => ?_⟩
    · have hFits : (sealedScope i).Fits m.heap (.execute depth env s) :=
        ⟨(), .top, hOther.symm, trivial⟩
      exact ((sealedScope_lawful cfg i).next_run fuel hThere hFits).2
    · exact ((namesKept_lawful cfg).grows_run fuel (.execute depth env s) m).bound hBound
    · cases hName : s.declared? with
      | none =>
        have hNone : Task.Undeclaring (.execute depth env s) := hName
        exact .inl (((next_undeclaring fuel hNone hThere).2 name).mp hBound)
      | some declared =>
        refine (gainsOnly_execute hName hThere name hBound).imp id fun h => ?_
        rw [h]
  · have hSame := (hExpr cfg.fuel 0 e).2
    exact ⟨fun _ => hSame, fun name => (hSame name).mpr, fun name h => .inl ((hSame name).mp h)⟩

/-- A block that declares a name leaves the globals without it. -/
theorem statement_declares_at_most_block :
    ¬((execute Session.standard.settings 1000 0 Session.standard.globals
      (.block ⟨[.simple (.var ⟨"x", none⟩ none none)], none⟩)).final
        Session.standard.machine).heap.Bound 0 "x" := by
  intro hBound
  have hThere : 0 < Session.standard.machine.heap.scopes.size := by decide
  have hNames := (statement_declares_at_most Session.standard.settings 1000 0
    Session.standard.globals Session.standard.machine 0 hThere).1
    (.block ⟨[.simple (.var ⟨"x", none⟩ none none)], none⟩) _ (.inl rfl)
  rcases hNames.2.2 "x" hBound with hOld | hName
  · exact absurd hOld (by unfold Heap.Bound; decide)
  · cases hName

end Tern
