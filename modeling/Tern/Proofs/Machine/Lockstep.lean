import Tern.Proofs.Machine.Simulation

/-!
# Lockstep

A worker that follows another one at every task is followed by steps, and so by whole runs: the
evaluator goes through the code in the same way on both sides. The cases are those of the
evaluator, one lemma for each of its functions. If the two runs have different numbers of steps to
go, the one that has fewer may tire first.

* `Simulation.Paces`: a worker follows another one at every task;
* `Simulation.paces_step`, `Simulation.paces_run`: so do steps and runs.
-/

namespace Tern

namespace Simulation

/-- At every task `other` follows `inner`. -/
structure Paces (S : Simulation) (inner other : Worker) : Prop where
  evaluate : ∀ {w depth depth' env env'}, S.Deep depth depth' → S.Sees w env env' → ∀ e,
    S.Tracks w S.Same (inner (.evaluate depth env e))
      (other (.evaluate depth' env' (e.respan S.veil.span)))
  evaluateAll : ∀ {w depth depth' env env'}, S.Deep depth depth' → S.Sees w env env' → ∀ es,
    S.Tracks w S.Same (inner (.evaluateAll depth env es))
      (other (.evaluateAll depth' env' (es.map (Expr.respan S.veil.span))))
  apply : ∀ {w depth depth'}, S.Deep depth depth' → ∀ callee args,
    S.Tracks w S.Same (inner (.apply depth callee args)) (other (.apply depth' callee args))
  applyFunc : ∀ {w depth depth'}, S.Deep depth depth' → ∀ id self args,
    S.Tracks w (S.Same (α := Value)) (inner (.applyFunc depth id self args))
      (other (.applyFunc depth' id self args))
  execute : ∀ {w depth depth' env env'}, S.Deep depth depth' → S.Stands w env env' → ∀ s,
    S.Tracks w S.Completes (inner (.execute depth env s))
      (other (.execute depth' env' (s.respan S.veil.span)))
  executeSimple : ∀ {w depth depth' env env'}, S.Deep depth depth' → S.Stands w env env' → ∀ s,
    S.Tracks w S.Completes (inner (.executeSimple depth env s))
      (other (.executeSimple depth' env' (s.respan S.veil.span)))
  executeAll : ∀ {w depth depth' env env'}, S.Deep depth depth' → S.Stands w env env' → ∀ body,
    S.Tracks w S.Completes (inner (.executeAll depth env body))
      (other (.executeAll depth' env' (body.map (Stmt.respan S.veil.span))))
  executeElifs : ∀ {w depth depth' env env'}, S.Deep depth depth' → S.Stands w env env' →
    ∀ clauses otherwise, S.Tracks w S.Completes (inner (.executeElifs depth env clauses otherwise))
      (other (.executeElifs depth' env' (clauses.map (ElifClause.respan S.veil.span))
        (otherwise.map (Block.respan S.veil.span))))
  runWhile : ∀ {w depth depth' env env'}, S.Deep depth depth' → S.Stands w env env' →
    ∀ condition body, S.Tracks w S.Completes (inner (.runWhile depth env condition body))
      (other (.runWhile depth' env' (condition.respan S.veil.span) (body.respan S.veil.span)))
  runFor : ∀ {w depth depth' env env'}, S.Deep depth depth' → S.Stands w env env' →
    ∀ condition update body,
      S.Tracks w S.Completes (inner (.runFor depth env condition update body))
        (other (.runFor depth' env' (condition.map (Expr.respan S.veil.span))
          (update.map (Expr.respan S.veil.span)) (body.respan S.veil.span)))

variable {S : Simulation} {cfg cfg' : Settings} {inner other : Worker} {w : S.World}
  {depth depth' : Nat} {env env' : Env} (L : S.Lawful cfg cfg') (R : S.Paces inner other)
  (hDeep : S.Deep depth depth')

section

include L R hDeep

/-! ## Expressions -/

/-- Arguments and then the call of a value that is there already. -/
theorem tracks_call (hSees : S.Sees w env env') (callee : Value) (args : List Expr) :
    S.Tracks w S.Same
      (do let vs ← inner (.evaluateAll depth env args); inner (.apply depth callee vs))
      (do
        let vs ← other (.evaluateAll depth' env' (args.map (Expr.respan S.veil.span)))
        other (.apply depth' callee vs)) :=
  tracks_then L (R.evaluateAll hDeep hSees _) fun _ _ _ => R.apply hDeep _ _

/-- A part of an expression, and then the rest of the work. -/
theorem tracks_operand {α : Type} {P : S.World → α → α → Prop} {f g : Value → Eval α}
    (hSees : S.Sees w env env') (e : Expr)
    (hf : ∀ w', S.Sees w' env env' → ∀ v, S.Tracks w' P (f v) (g v)) :
    S.Tracks w P (inner (.evaluate depth env e) >>= f)
      (other (.evaluate depth' env' (e.respan S.veil.span)) >>= g) :=
  tracks_then L (R.evaluate hDeep hSees e) fun w' later v =>
    hf w' (L.sees_later later hSees) v

omit hDeep in
theorem tracks_expr (hDeep : S.Deep depth depth') (hSees : S.Sees w env env') (e : Expr) :
    S.Tracks w S.Same (Step.expr cfg inner depth env e)
      (Step.expr cfg' other depth' env' (e.respan S.veil.span)) := by
  have hDeeper := L.deeper hDeep
  cases e with
  | string | boolean | null => exact tracks_pure L rfl
  | number x s => exact tracks_number L x
  | array es s =>
    rw [Expr.respan, Expr.respanAll_eq]
    refine tracks_then L (R.evaluateAll hDeeper hSees _) fun w' later vs => ?_
    refine tracks_then L (tracks_allocCells L (fun _ => rfl) fun _ _ => rfl) fun _ _ _ => ?_
    exact tracks_pure L rfl
  | name | this => exact tracks_lookup L hSees _
  | super m s => exact tracks_superMethod L hSees _
  | unary op e s =>
    exact tracks_operand L R hDeeper hSees _ fun w' _ v => tracks_unary L op v
  | binary op a b s =>
    refine tracks_operand L R hDeeper hSees _ fun w₁ hSees₁ u => ?_
    exact tracks_operand L R hDeeper hSees₁ _ fun w₂ _ v => tracks_binary L hDeeper op u v
  | logical op a b s =>
    refine tracks_operand L R hDeeper hSees _ fun w₁ hSees₁ u => ?_
    split
    · exact tracks_pure L rfl
    · exact tracks_pure L rfl
    · exact tracks_operand L R hDeeper hSees₁ _ fun w₂ _ v => tracks_pure L rfl
  | call f args s =>
    cases f with
    | member o m s' =>
      rw [Expr.respan, Expr.respan, Expr.respanAll_eq]
      refine tracks_operand L R hDeeper hSees _ fun w₁ hSees₁ object => ?_
      refine tracks_then L (tracks_memberForCall L _ _) fun w₂ later callee => ?_
      exact tracks_call L R hDeeper (L.sees_later later hSees₁) _ _
    | _ =>
      rw [Expr.respan, Expr.respanAll_eq]
      exact tracks_operand L R hDeeper hSees _ fun w₁ hSees₁ callee =>
        tracks_call L R hDeeper hSees₁ _ _
  | member o m s =>
    exact tracks_operand L R hDeeper hSees _ fun w' _ v => tracks_readMember L v _
  | setMember o m v s =>
    refine tracks_operand L R hDeeper hSees _ fun w₁ hSees₁ object => ?_
    refine tracks_then L (tracks_memberTarget L _ _) fun w₂ later id => ?_
    refine tracks_operand L R hDeeper (L.sees_later later hSees₁) _ fun w₃ _ value => ?_
    refine tracks_then L (tracks_updateCells L (fun _ => rfl) fun _ _ => rfl) fun _ _ _ => ?_
    exact tracks_pure L rfl
  | index o i s =>
    refine tracks_operand L R hDeeper hSees _ fun w₁ hSees₁ object => ?_
    exact tracks_operand L R hDeeper hSees₁ _ fun w₂ _ index => tracks_readIndex L object index
  | setIndex o i v s =>
    refine tracks_operand L R hDeeper hSees _ fun w₁ hSees₁ object => ?_
    refine tracks_operand L R hDeeper hSees₁ _ fun w₂ hSees₂ index => ?_
    refine tracks_then L (tracks_indexTarget L _ _) fun w₃ later target => ?_
    refine tracks_operand L R hDeeper (L.sees_later later hSees₂) _ fun w₄ _ value => ?_
    refine tracks_then L (tracks_updateCells L (fun _ => rfl) fun _ _ => rfl) fun _ _ _ => ?_
    exact tracks_pure L rfl
  | assign t v s =>
    refine tracks_operand L R hDeeper hSees _ fun w₁ hSees₁ value => ?_
    exact tracks_then L (tracks_assign L hSees₁ _ _) fun _ _ _ => tracks_pure L rfl

theorem tracks_stepEvaluate (hSees : S.Sees w env env') (e : Expr) :
    S.Tracks w S.Same (Step.evaluate cfg inner depth env e)
      (Step.evaluate cfg' other depth' env' (e.respan S.veil.span)) := by
  unfold Step.evaluate
  rw [Expr.span_respan, isFull_eq L hDeep]
  refine tracks_ite Iff.rfl (tracks_overflow L) ?_
  exact tracks_located _ (tracks_expr L R hDeep hSees e)

theorem tracks_stepEvaluateAll (hSees : S.Sees w env env') (es : List Expr) :
    S.Tracks w S.Same (Step.evaluateAll inner depth env es)
      (Step.evaluateAll other depth' env' (es.map (Expr.respan S.veil.span))) := by
  cases es with
  | nil => exact tracks_pure L rfl
  | cons e rest =>
    refine tracks_operand L R hDeep hSees e fun w' hSees' v => ?_
    exact tracks_then L (R.evaluateAll hDeep hSees' _) fun _ _ vs => tracks_pure L rfl

/-! ## Calls -/

omit R hDeep in
theorem tracks_callResult (initializer : Bool) (c : Completion) :
    S.Tracks w S.Same (Eval.callResult initializer c)
      (Eval.callResult initializer (S.veil.completion c)) := by
  cases c with
  | throw t => exact tracks_throw L (.thrown t)
  | _ => exact tracks_pure L rfl

omit R hDeep in
theorem tracks_checkCall (f : FuncDef) (received : Nat) :
    S.Tracks w S.Same (Eval.checkCall cfg f received)
      (Eval.checkCall cfg' (f.respan S.veil.span) received) := by
  unfold Eval.checkCall
  rw [FuncDef.params_respan, List.length_map, FuncDef.id_respan, L.limit]
  refine tracks_ite Iff.rfl (tracks_fault L _) ?_
  refine tracks_bind L (tracks_get L) fun w' _ m m' hm => ?_
  rw [hm.callDepth]
  exact tracks_ite Iff.rfl (tracks_fault L _) (tracks_pure L rfl)

theorem tracks_stepApply (callee : Value) (args : List Value) :
    S.Tracks w S.Same (Step.apply cfg inner depth callee args)
      (Step.apply cfg' other depth' callee args) := by
  cases callee with
  | func id => exact R.applyFunc hDeep _ _ _
  | bound id self => exact R.applyFunc hDeep _ _ _
  | native f =>
    exact tracks_callNative L hDeep (fun w callee args => R.apply (L.deeper hDeep) callee args) _ _
  | cls c =>
    refine tracks_then L (tracks_allocCells L (fun _ => rfl) fun _ _ => rfl) fun w' _ id => ?_
    cases c.findMethod? Eval.initializerName with
    | some f => exact tracks_then L (R.applyFunc hDeep _ _ _) fun _ _ _ => tracks_pure L rfl
    | none => exact tracks_ite Iff.rfl (tracks_pure L rfl) (tracks_fault L _)
  | _ => exact tracks_fault L _

theorem tracks_stepApplyFunc (id : FuncId) (self : Option ObjectId) (args : List Value) :
    S.Tracks w S.Same (Step.applyFunc cfg inner depth id self args)
      (Step.applyFunc cfg' other depth' id self args) := by
  refine tracks_bind L (tracks_heap L) fun w₁ _ h h' hHeaps => ?_
  obtain ⟨hDefinition, hInitializer, hSees⟩ := L.closure hHeaps id
  dsimp only
  rw [hDefinition, hInitializer]
  refine tracks_then L (tracks_checkCall L _ _) fun w₂ later _ => ?_
  refine tracks_bind L (tracks_enterCall L hDefinition (L.sees_later later hSees) _ _) ?_
  intro w₃ _ env env' hStands
  rw [FuncDef.body_respan, Block.body_respan]
  refine tracks_bind L (tracks_withCallDepth (R.executeAll hDeep hStands _)) ?_
  rintro w₄ _ c _ rfl
  exact tracks_callResult L _ _

/-! ## Statements -/

/-- A block in a scope of its own. -/
theorem tracks_block (hSees : S.Sees w env env') (names : Scope) (b : Block) :
    S.Tracks w S.Completes
      (do let env ← Eval.enter env names; inner (.executeAll depth env b.body))
      (do
        let env ← Eval.enter env' names
        other (.executeAll depth' env (b.respan S.veil.span).body)) := by
  rw [Block.body_respan]
  exact tracks_bind L (tracks_enter L hSees _) fun _ _ _ _ hStands =>
    R.executeAll hDeep hStands _

theorem tracks_stepExecuteSimple (hStands : S.Stands w env env') (s : Simple) :
    S.Tracks w S.Completes (Step.executeSimple inner depth env s)
      (Step.executeSimple other depth' env' (s.respan S.veil.span)) := by
  have hSees := L.sees hStands
  cases s with
  | var id e s =>
    cases e with
    | none => exact tracks_then L (tracks_declare L hStands _ _ _) fun _ _ _ => tracks_pure L rfl
    | some e =>
      refine tracks_then L (R.evaluate hDeep hSees _) fun w' later v => ?_
      refine tracks_then L (tracks_declare L (L.stands_later later hStands) _ _ _) fun _ _ _ => ?_
      exact tracks_pure L rfl
  | const id e s =>
    refine tracks_then L (R.evaluate hDeep hSees _) fun w' later v => ?_
    refine tracks_then L (tracks_declare L (L.stands_later later hStands) _ _ _) fun _ _ _ => ?_
    exact tracks_pure L rfl
  | expr e s => exact tracks_then L (R.evaluate hDeep hSees _) fun _ _ _ => tracks_pure L rfl

theorem tracks_stepExecuteAll (hStands : S.Stands w env env') (body : List Stmt) :
    S.Tracks w S.Completes (Step.executeAll inner depth env body)
      (Step.executeAll other depth' env' (body.map (Stmt.respan S.veil.span))) := by
  cases body with
  | nil => exact tracks_pure L rfl
  | cons s rest =>
    refine tracks_bind L (R.execute hDeep hStands _) ?_
    rintro w' later c _ rfl
    cases c with
    | normal => exact R.executeAll hDeep (L.stands_later later hStands) _
    | _ => exact tracks_pure L rfl

theorem tracks_stepExecuteElifs (hStands : S.Stands w env env') (clauses : List ElifClause)
    (otherwise : Option Block) :
    S.Tracks w S.Completes (Step.executeElifs inner depth env clauses otherwise)
      (Step.executeElifs other depth' env' (clauses.map (ElifClause.respan S.veil.span))
        (otherwise.map (Block.respan S.veil.span))) := by
  cases clauses with
  | nil =>
    cases otherwise with
    | none => exact tracks_pure L rfl
    | some b => exact tracks_block L R hDeep (L.sees hStands) [] b
  | cons clause rest =>
    obtain ⟨condition, body, s⟩ := clause
    rw [List.map_cons, ElifClause.respan]
    refine tracks_then L (R.evaluate hDeep (L.sees hStands) _) fun w' later v => ?_
    have hLater := L.stands_later later hStands
    exact tracks_ite Iff.rfl (tracks_block L R hDeep (L.sees hLater) [] _)
      (R.executeElifs hDeep hLater _ _)

theorem tracks_stepRunWhile (hStands : S.Stands w env env') (condition : Expr) (body : Block) :
    S.Tracks w S.Completes (Step.runWhile inner depth env condition body)
      (Step.runWhile other depth' env' (condition.respan S.veil.span)
        (body.respan S.veil.span)) := by
  unfold Step.runWhile
  rw [Block.body_respan]
  refine tracks_then L (R.evaluate hDeep (L.sees hStands) _) fun w₁ later₁ v => ?_
  have hStands₁ := L.stands_later later₁ hStands
  refine tracks_ite Iff.rfl ?_ (tracks_pure L rfl)
  refine tracks_bind L (tracks_enter L (L.sees hStands₁) _) fun w₂ later₂ _ _ hBody => ?_
  refine tracks_bind L (R.executeAll hDeep hBody _) ?_
  rintro w₃ later₃ c _ rfl
  cases c with
  | breakLoop | ret | throw => exact tracks_pure L rfl
  | normal | continueLoop =>
    exact R.runWhile hDeep (L.stands_later (L.trans later₂ later₃) hStands₁) _ _

theorem tracks_holds (hSees : S.Sees w env env') (condition : Option Expr) :
    S.Tracks w S.Same (Step.holds inner depth env condition)
      (Step.holds other depth' env' (condition.map (Expr.respan S.veil.span))) := by
  cases condition with
  | none => exact tracks_pure L rfl
  | some e => exact tracks_then L (R.evaluate hDeep hSees _) fun _ _ v => tracks_pure L rfl

/-- The next round of a loop, after its update. -/
theorem tracks_nextRound (hStands : S.Stands w env env') (condition update : Option Expr)
    (body : Block) :
    S.Tracks w S.Completes
      (match update with
        | none => inner (.runFor depth env condition update body)
        | some e => do
          let _ ← inner (.evaluate depth env e)
          inner (.runFor depth env condition update body))
      (match update.map (Expr.respan S.veil.span) with
        | none => other (.runFor depth' env' (condition.map (Expr.respan S.veil.span))
          (update.map (Expr.respan S.veil.span)) (body.respan S.veil.span))
        | some e => do
          let _ ← other (.evaluate depth' env' e)
          other (.runFor depth' env' (condition.map (Expr.respan S.veil.span))
            (update.map (Expr.respan S.veil.span)) (body.respan S.veil.span))) := by
  cases update with
  | none => exact R.runFor hDeep hStands _ none _
  | some e =>
    exact tracks_then L (R.evaluate hDeep (L.sees hStands) _) fun _ later _ =>
      R.runFor hDeep (L.stands_later later hStands) _ (some e) _

theorem tracks_stepRunFor (hStands : S.Stands w env env') (condition update : Option Expr)
    (body : Block) :
    S.Tracks w S.Completes (Step.runFor inner depth env condition update body)
      (Step.runFor other depth' env' (condition.map (Expr.respan S.veil.span))
        (update.map (Expr.respan S.veil.span)) (body.respan S.veil.span)) := by
  unfold Step.runFor
  rw [Block.body_respan]
  refine tracks_then L (tracks_holds L R hDeep (L.sees hStands) _) fun w₁ later₁ more => ?_
  have hStands₁ := L.stands_later later₁ hStands
  refine tracks_ite Iff.rfl ?_ (tracks_pure L rfl)
  refine tracks_bind L (tracks_enter L (L.sees hStands₁) _) fun w₂ later₂ _ _ hBody => ?_
  refine tracks_bind L (R.executeAll hDeep hBody _) ?_
  rintro w₃ later₃ c _ rfl
  cases c with
  | breakLoop | ret | throw => exact tracks_pure L rfl
  | normal | continueLoop =>
    exact tracks_nextRound L R hDeep (L.stands_later (L.trans later₂ later₃) hStands₁) _ _ body

/-- The handler of a thrown value. -/
theorem tracks_handler (hSees : S.Sees w env env') (t : Thrown) (param : Ident)
    (handler : Block) :
    S.Tracks w S.Completes
      (do
        let text ← Eval.display cfg depth t.value
        Eval.debug cfg ("caught " ++ text ++ " in '" ++ param.name ++ "'")
        let catchEnv ← Eval.enter env [(param.name, ⟨t.value, false⟩)]
        inner (.executeAll depth catchEnv handler.body))
      (do
        let text ← Eval.display cfg' depth' t.value
        Eval.debug cfg' ("caught " ++ text ++ " in '" ++ (param.respan S.veil.span).name ++ "'")
        let catchEnv ← Eval.enter env' [((param.respan S.veil.span).name, ⟨t.value, false⟩)]
        other (.executeAll depth' catchEnv (handler.respan S.veil.span).body)) := by
  refine tracks_then L (tracks_display L hDeep _) fun w₁ later₁ text => ?_
  refine tracks_then L (tracks_debug L _) fun w₂ later₂ _ => ?_
  exact tracks_block L R hDeep (L.sees_later (L.trans later₁ later₂) hSees) _ handler

omit hDeep in
theorem tracks_stmt (hDeep : S.Deep depth depth') (hStands : S.Stands w env env') (s : Stmt) :
    S.Tracks w S.Completes (Step.stmt cfg inner depth env s)
      (Step.stmt cfg' other depth' env' (s.respan S.veil.span)) := by
  have hDeeper := L.deeper hDeep
  have hSees := L.sees hStands
  cases s with
  | simple s => exact R.executeSimple hDeeper hStands _
  | func f => exact tracks_then L (tracks_defineFunc L hStands _) fun _ _ _ => tracks_pure L rfl
  | cls c => exact tracks_then L (tracks_defineClass L hStands _) fun _ _ _ => tracks_pure L rfl
  | block b => exact tracks_block L R hDeeper hSees [] b
  | ifElse condition body elifs otherwise s =>
    rw [Stmt.respan, ElifClause.respanAll_eq, Block.respanOption_eq]
    refine tracks_then L (R.evaluate hDeeper hSees _) fun w₁ later v => ?_
    have hLater := L.stands_later later hStands
    exact tracks_ite Iff.rfl (tracks_block L R hDeeper (L.sees hLater) [] _)
      (R.executeElifs hDeeper hLater _ _)
  | whileLoop condition body s => exact R.runWhile hDeeper hStands _ _
  | forLoop start condition update body s =>
    refine tracks_bind L (tracks_enter L hSees _) fun w₁ _ _ _ hLoop => ?_
    cases start with
    | none => exact R.runFor hDeeper hLoop _ _ _
    | some start =>
      refine tracks_bind L (R.execute hDeeper hLoop (.simple start)) ?_
      rintro w₂ later c _ rfl
      cases c with
      | normal => exact R.runFor hDeeper (L.stands_later later hLoop) _ _ _
      | _ => exact tracks_pure L rfl
  | breakLoop | continueLoop => exact tracks_pure L rfl
  | ret e s =>
    cases e with
    | none => exact tracks_pure L rfl
    | some e => exact tracks_then L (R.evaluate hDeeper hSees _) fun _ _ v => tracks_pure L rfl
  | tryCatch body param handler s =>
    rw [Stmt.respan]
    refine tracks_bind L (tracks_enter L hSees _) fun w₁ later₁ _ _ hTry => ?_
    rw [Block.body_respan]
    refine tracks_bind L (R.executeAll hDeeper hTry _) ?_
    rintro w₂ later₂ c _ rfl
    cases c with
    | throw t =>
      exact tracks_handler L R hDeeper (L.sees_later (L.trans later₁ later₂) hSees) t param handler
    | _ => exact tracks_pure L rfl
  | throw e s => exact tracks_then L (R.evaluate hDeeper hSees _) fun _ _ v => tracks_pure L rfl

theorem tracks_stepExecute (hStands : S.Stands w env env') (s : Stmt) :
    S.Tracks w S.Completes (Step.execute cfg inner depth env s)
      (Step.execute cfg' other depth' env' (s.respan S.veil.span)) := by
  unfold Step.execute
  rw [Stmt.span_respan, isFull_eq L hDeep]
  exact tracks_guarded _ (tracks_ite Iff.rfl (tracks_overflow L) (tracks_stmt L R hDeep hStands s))

end

/-! ## Steps and runs -/

theorem paces_step (L : S.Lawful cfg cfg') (R : S.Paces inner other) :
    S.Paces (step cfg inner) (step cfg' other) where
  evaluate := tracks_stepEvaluate L R
  evaluateAll := tracks_stepEvaluateAll L R
  apply := tracks_stepApply L R
  applyFunc := tracks_stepApplyFunc L R
  execute := tracks_stepExecute L R
  executeSimple := tracks_stepExecuteSimple L R
  executeAll := tracks_stepExecuteAll L R
  executeElifs := tracks_stepExecuteElifs L R
  runWhile := tracks_stepRunWhile L R
  runFor := tracks_stepRunFor L R

/-- Runs stay in step for as long as both have steps to go. -/
theorem paces_run (L : S.Lawful cfg cfg') {fuel fuel' : Nat}
    (hFirst : fuel < fuel' → S.firstMayTire) (hSecond : fuel' < fuel → S.secondMayTire) :
    S.Paces (run cfg fuel) (run cfg' fuel') := by
  induction fuel generalizing fuel' with
  | zero =>
    cases fuel' with
    | zero => constructor <;> intros <;> exact tracks_throw L .exhausted
    | succ fuel' => constructor <;> intros <;> exact fun _ _ _ => .first (hFirst (Nat.succ_pos _))
  | succ fuel ih =>
    cases fuel' with
    | zero => constructor <;> intros <;> exact fun _ _ _ => .second (hSecond (Nat.succ_pos _))
    | succ fuel' =>
      exact paces_step L (ih (fun h => hFirst (Nat.succ_lt_succ h))
        fun h => hSecond (Nat.succ_lt_succ h))

end Simulation

end Tern
