import Tern.Machine.Program
import Tern.Proofs.Machine.Discipline
import Tern.Proofs.Machine.Plain

/-!
# Runs keep their discipline

A discipline that is kept by the worker for the parts is kept by a step, and so by every run.
The proof goes through the evaluator once, for two workers at a time: if they agree on the
tasks that the discipline admits, the steps made with them agree as well. A run can therefore
not depend on a task that the discipline does not admit, which is how the discipline reaches
every moment of a run and not only its end.

* `Discipline.agree_step`: a step keeps the discipline;
* `Discipline.agree_run`: so does a run;
* `Moment`: the tasks that a run comes by, with their machines;
* `Discipline.fits_of_moment`: all of them are admitted.
-/

namespace Tern

namespace Discipline

variable {cfg : Settings} {D : Discipline} {m₀ m : Machine} {inner other : Worker}

/-! ## Admitted tasks -/

/-- The tasks that a discipline admits: code of a site in an environment of the site, or calls
of values that may occur. -/
def Fits (D : Discipline) (h : Heap) : Task → Prop
  | .evaluate _ env e => ∃ σ ctx, D.At h σ env ∧ D.Code σ ctx (.expr e)
  | .evaluateAll _ env es => ∃ σ ctx, D.At h σ env ∧ ∀ e ∈ es, D.Code σ ctx (.expr e)
  | .apply _ callee args => D.Val h callee ∧ ∀ v ∈ args, D.Val h v
  | .applyFunc _ id self args => D.Val h (.callee id self) ∧ ∀ v ∈ args, D.Val h v
  | .execute _ env s => ∃ σ ctx, D.At h σ env ∧ D.Code σ ctx (.stmt s)
  | .executeSimple _ env s => ∃ σ ctx, D.At h σ env ∧ D.Code σ ctx (.stmt (.simple s))
  | .executeAll _ env body => ∃ σ ctx, D.At h σ env ∧ ∀ s ∈ body, D.Code σ ctx (.stmt s)
  | .executeElifs _ env clauses otherwise => ∃ σ ctx, D.At h σ env ∧
      (∀ c ∈ clauses, D.Code σ ctx (.elif c)) ∧ ∀ b ∈ otherwise, D.Code σ ctx (.block b)
  | .runWhile _ env condition body => ∃ σ ctx, D.At h σ env ∧
      D.Code σ ctx (.expr condition) ∧ D.Code σ ctx.loop (.block body)
  | .runFor _ env condition update body => ∃ σ ctx, D.At h σ env ∧
      (∀ e ∈ condition, D.Code σ ctx (.expr e)) ∧ (∀ e ∈ update, D.Code σ ctx (.expr e)) ∧
      D.Code σ ctx.loop (.block body)

/-- The results that a discipline admits. -/
def Yields (D : Discipline) (h : Heap) : (t : Task) → t.Result → Prop
  | .evaluate .., v | .apply .., v | .applyFunc .., v => D.Val h v
  | .evaluateAll .., vs => ∀ v ∈ vs, D.Val h v
  | .execute .., c | .executeSimple .., c | .executeAll .., c | .executeElifs .., c
  | .runWhile .., c | .runFor .., c => D.Ends h c

/-- Two workers that agree on the admitted tasks, and keep the discipline there. -/
def Agree (D : Discipline) (inner other : Worker) : Prop :=
  ∀ t m, D.Inv m → D.Fits m.heap t →
    D.Twin m m (inner t) (other t) fun m' => D.Yields m'.heap t

/-- One computation after another, where what comes first is over when the second starts. -/
theorem Steady.twin_seq {α β : Type} (L : D.Steady cfg) {x y : Eval α} {f g : α → Eval β}
    {P : Machine → α → Prop} {Q : Machine → β → Prop} (hx : D.Twin m m x y P)
    (hf : ∀ a m', D.Next m m' → P m' a → D.Twin m' m' (f a) (g a) Q) :
    D.Twin m m (x >>= f) (y >>= g) Q :=
  twin_bind hx fun a m' hm' ha => L.twin_from hm' (hf a m' hm' ha)

theorem Steady.here (L : D.Steady cfg) (hInv : D.Inv m) : D.Next m m := ⟨hInv, L.refl m⟩

/-! ## Code and its parts -/

section

variable (L : D.Steady cfg) {σ : D.Site} {ctx : Context}
include L

theorem Steady.code_child {e : Expr} {n : Node} (h : D.Code σ ctx (.expr e))
    (hn : n ∈ Node.ofExpr e) : D.Code σ ctx n :=
  L.code_part (q := (ctx, n)) h (List.mem_map_of_mem hn)

/-- A part of a statement that is not a class. -/
theorem Steady.code_stmt {s : Stmt} {ctx' : Context} {n : Node} (h : D.Code σ ctx (.stmt s))
    (hOwn : Node.ownParts ctx (.stmt s) = Node.stmtParts ctx s)
    (hn : (ctx', n) ∈ Node.stmtParts ctx s) : D.Code σ ctx' n :=
  L.code_part (q := (ctx', n)) h (hOwn ▸ hn)

theorem Steady.code_simple {s : Simple} {n : Node} (h : D.Code σ ctx (.stmt (.simple s)))
    (hn : n ∈ Node.ofSimple s) : D.Code σ ctx n :=
  L.code_stmt h rfl (List.mem_map_of_mem hn)

theorem Steady.code_block {b : Block} (h : D.Code σ ctx (.block b)) :
    ∀ s ∈ b.body, D.Code σ ctx (.stmt s) := by
  intro s hs
  refine L.code_stmt h rfl ?_
  simp only [Node.stmtParts, Node.ofStmt, List.map_map]
  exact List.mem_map_of_mem hs

end

/-! ## Expressions -/

section

variable (L : D.Steady cfg) (hAgree : D.Agree inner other) (hInv : D.Inv m)
  {σ : D.Site} {ctx : Context} {env : Env} (hAt : D.At m.heap σ env) (depth : Nat)

section

include hAgree hInv hAt

theorem twin_evaluate {e : Expr} (hCode : D.Code σ ctx (.expr e)) :
    D.Twin m m (inner (.evaluate depth env e)) (other (.evaluate depth env e))
      fun m' v => D.Val m'.heap v :=
  hAgree (.evaluate depth env e) m hInv ⟨σ, ctx, hAt, hCode⟩

theorem twin_evaluateAll {es : List Expr} (hCode : ∀ e ∈ es, D.Code σ ctx (.expr e)) :
    D.Twin m m (inner (.evaluateAll depth env es)) (other (.evaluateAll depth env es))
      fun m' vs => ∀ v ∈ vs, D.Val m'.heap v :=
  hAgree (.evaluateAll depth env es) m hInv ⟨σ, ctx, hAt, hCode⟩

theorem twin_executeAll {body : List Stmt} (hCode : ∀ s ∈ body, D.Code σ ctx (.stmt s)) :
    D.Twin m m (inner (.executeAll depth env body)) (other (.executeAll depth env body))
      fun m' c => D.Ends m'.heap c :=
  hAgree (.executeAll depth env body) m hInv ⟨σ, ctx, hAt, hCode⟩

end

include L hAgree

/-- Arguments and then the call of a value that is there already. -/
theorem Steady.twin_call {args : List Expr} {callee : Value} (hInv : D.Inv m)
    (hAt : D.At m.heap σ env) (hCallee : D.Val m.heap callee)
    (hArgs : ∀ e ∈ args, D.Code σ ctx (.expr e)) :
    D.Twin m m
      (do let vs ← inner (.evaluateAll depth env args); inner (.apply depth callee vs))
      (do let vs ← other (.evaluateAll depth env args); other (.apply depth callee vs))
      fun m' v => D.Val m'.heap v := by
  refine L.twin_seq (twin_evaluateAll hAgree hInv hAt depth hArgs) fun vs m₁ hm₁ hvs => ?_
  exact hAgree (.apply depth callee vs) m₁ hm₁.1 ⟨L.val_grows hm₁.2 hCallee, hvs⟩

include hInv hAt

theorem Steady.twin_expr {e : Expr} (hCode : D.Code σ ctx (.expr e)) :
    D.Twin m m (Step.expr cfg inner depth env e) (Step.expr cfg other depth env e)
      fun m' v => D.Val m'.heap v := by
  have hHere := L.here hInv
  unfold Step.expr
  split
  · exact twin_pure hHere (L.plain trivial)
  · exact L.holds_number hHere _
  · exact twin_pure hHere (L.plain trivial)
  · exact twin_pure hHere (L.plain trivial)
  · next es _ =>
    refine L.twin_seq (twin_evaluateAll hAgree hInv hAt _ fun e he =>
      L.code_child hCode (List.mem_map_of_mem he)) fun vs m₁ hm₁ hvs => ?_
    obtain ⟨hNext, hVal⟩ := L.newArray hm₁.1 hvs
    refine twin_bind (P := fun m' id => D.Val m'.heap (.array id))
      (L.holds_alloc (L.here hm₁.1) hNext hVal) ?_
    exact fun id m₂ hm₂ hId => twin_pure hm₂ hId
  · exact L.holds_lookup hHere hAt _
  · exact L.holds_lookup hHere hAt _
  · exact L.holds_superMethod hHere hAt hCode
  · next op e _ =>
    refine L.twin_seq (twin_evaluate hAgree hInv hAt _
      (L.code_child hCode (n := .expr e) (by simp [Node.ofExpr]))) fun v m₁ hm₁ _ => ?_
    exact L.holds_unary (L.here hm₁.1) op v
  · next op l r _ =>
    refine L.twin_seq (twin_evaluate hAgree hInv hAt _
      (L.code_child hCode (n := .expr l) (by simp [Node.ofExpr]))) fun a m₁ hm₁ _ => ?_
    refine L.twin_seq (twin_evaluate hAgree hm₁.1 (L.at_grows hm₁.2 hAt) _
      (L.code_child hCode (n := .expr r) (by simp [Node.ofExpr]))) fun b m₂ hm₂ _ => ?_
    exact L.holds_binary (L.here hm₂.1) _ op a b
  · next op l r _ =>
    refine L.twin_seq (twin_evaluate hAgree hInv hAt _
      (L.code_child hCode (n := .expr l) (by simp [Node.ofExpr]))) fun a m₁ hm₁ _ => ?_
    split
    · exact twin_pure (L.here hm₁.1) (L.plain trivial)
    · exact twin_pure (L.here hm₁.1) (L.plain trivial)
    · refine L.twin_seq (twin_evaluate hAgree hm₁.1 (L.at_grows hm₁.2 hAt) _
        (L.code_child hCode (n := .expr r) (by simp [Node.ofExpr]))) fun b m₂ hm₂ _ => ?_
      exact twin_pure (L.here hm₂.1) (L.plain trivial)
  · next o id span args _ =>
    -- the callee is looked up in its object before the arguments are evaluated
    have hMember : D.Code σ ctx (.expr (.member o id span)) :=
      L.code_child hCode (by simp [Node.ofExpr])
    refine L.twin_seq (twin_evaluate hAgree hInv hAt _
      (L.code_child hMember (n := .expr o) (by simp [Node.ofExpr]))) fun object m₁ hm₁ hObject => ?_
    refine L.twin_seq (L.holds_memberForCall (L.here hm₁.1) hObject id.name) ?_
    intro callee m₂ hm₂ hCallee
    have hArgs : ∀ e ∈ args, D.Code σ ctx (.expr e) :=
      fun e he => L.code_child hCode (by simp [Node.ofExpr, he])
    exact L.twin_call hAgree _ hm₂.1 (L.at_grows hm₂.2 (L.at_grows hm₁.2 hAt)) hCallee hArgs
  · next f args _ _ =>
    refine L.twin_seq (twin_evaluate hAgree hInv hAt _
      (L.code_child hCode (n := .expr f) (by simp [Node.ofExpr]))) fun callee m₁ hm₁ hCallee => ?_
    have hArgs : ∀ e ∈ args, D.Code σ ctx (.expr e) :=
      fun e he => L.code_child hCode (by simp [Node.ofExpr, he])
    exact L.twin_call hAgree _ hm₁.1 (L.at_grows hm₁.2 hAt) hCallee hArgs
  · next o id _ =>
    refine L.twin_seq (twin_evaluate hAgree hInv hAt _
      (L.code_child hCode (n := .expr o) (by simp [Node.ofExpr]))) fun object m₁ hm₁ hObject => ?_
    exact L.holds_readMember (L.here hm₁.1) hObject id.name
  · next o id v _ =>
    refine L.twin_seq (twin_evaluate hAgree hInv hAt _
      (L.code_child hCode (n := .expr o) (by simp [Node.ofExpr]))) fun object m₁ hm₁ hObject => ?_
    refine L.twin_seq (holds_memberTarget (L.here hm₁.1) hObject id.name) fun i m₂ hm₂ hi => ?_
    refine L.twin_seq (twin_evaluate hAgree hm₂.1 (L.at_grows hm₂.2 (L.at_grows hm₁.2 hAt)) _
      (L.code_child hCode (n := .expr v) (by simp [Node.ofExpr]))) fun value m₃ hm₃ hValue => ?_
    have hNext : D.Next m₃ (m₃.withHeap (m₃.heap.setField i id.name value)) :=
      L.setField hm₃.1 (L.val_grows hm₃.2 hi) hValue
    refine twin_bind (P := fun m' _ => D.Val m'.heap value)
      (L.holds_update (L.here hm₃.1) hNext (L.val_grows hNext.2 hValue)) ?_
    exact fun _ m₄ hm₄ h => twin_pure hm₄ h
  · next o i _ =>
    refine L.twin_seq (twin_evaluate hAgree hInv hAt _
      (L.code_child hCode (n := .expr o) (by simp [Node.ofExpr]))) fun object m₁ hm₁ hObject => ?_
    refine L.twin_seq (twin_evaluate hAgree hm₁.1 (L.at_grows hm₁.2 hAt) _
      (L.code_child hCode (n := .expr i) (by simp [Node.ofExpr]))) fun index m₂ hm₂ _ => ?_
    exact L.holds_readIndex (L.here hm₂.1) (L.val_grows hm₂.2 hObject) index
  · next o i v _ =>
    refine L.twin_seq (twin_evaluate hAgree hInv hAt _
      (L.code_child hCode (n := .expr o) (by simp [Node.ofExpr]))) fun object m₁ hm₁ hObject => ?_
    have hAt₁ := L.at_grows hm₁.2 hAt
    refine L.twin_seq (twin_evaluate hAgree hm₁.1 hAt₁ _
      (L.code_child hCode (n := .expr i) (by simp [Node.ofExpr]))) fun index m₂ hm₂ _ => ?_
    have hAt₂ := L.at_grows hm₂.2 hAt₁
    refine L.twin_seq (holds_indexTarget (L.here hm₂.1) (L.val_grows hm₂.2 hObject) index) ?_
    rintro ⟨id, position⟩ m₃ hm₃ hTarget
    refine L.twin_seq (twin_evaluate hAgree hm₃.1 (L.at_grows hm₃.2 hAt₂) _
      (L.code_child hCode (n := .expr v) (by simp [Node.ofExpr]))) fun value m₄ hm₄ hValue => ?_
    have hNext := L.setElement (i := position) hm₄.1 (L.val_grows hm₄.2 hTarget) hValue
    refine twin_bind (P := fun m' _ => D.Val m'.heap value)
      (L.holds_update (L.here hm₄.1) hNext (L.val_grows hNext.2 hValue)) ?_
    exact fun _ m₅ hm₅ h => twin_pure hm₅ h
  · next t v _ =>
    refine L.twin_seq (twin_evaluate hAgree hInv hAt _
      (L.code_child hCode (n := .expr v) (by simp [Node.ofExpr]))) fun value m₁ hm₁ hValue => ?_
    have hTarget : D.Code σ ctx (.ident t) := L.code_child hCode (by simp [Node.ofExpr])
    refine L.twin_seq (L.holds_assign (L.here hm₁.1) (L.at_grows hm₁.2 hAt) hTarget hValue) ?_
    exact fun _ m₂ hm₂ h => twin_pure (L.here hm₂.1) h

theorem Steady.twin_stepEvaluate {e : Expr} (hCode : D.Code σ ctx (.expr e)) :
    D.Twin m m (Step.evaluate cfg inner depth env e) (Step.evaluate cfg other depth env e)
      fun m' v => D.Val m'.heap v :=
  twin_ite (fun _ => twin_overflow (L.here hInv)) fun _ =>
    twin_located _ (L.twin_expr hAgree hInv hAt depth hCode)

theorem Steady.twin_stepEvaluateAll {es : List Expr} (hCode : ∀ e ∈ es, D.Code σ ctx (.expr e)) :
    D.Twin m m (Step.evaluateAll inner depth env es) (Step.evaluateAll other depth env es)
      fun m' vs => ∀ v ∈ vs, D.Val m'.heap v := by
  cases es with
  | nil => exact twin_pure (L.here hInv) (by simp)
  | cons e rest =>
    refine L.twin_seq (twin_evaluate hAgree hInv hAt depth (hCode e List.mem_cons_self)) ?_
    intro v m₁ hm₁ hv
    refine L.twin_seq (twin_evaluateAll hAgree hm₁.1 (L.at_grows hm₁.2 hAt) depth
      fun e he => hCode e (List.mem_cons_of_mem _ he)) fun vs m₂ hm₂ hvs => ?_
    exact twin_pure (L.here hm₂.1) (List.forall_mem_cons.mpr ⟨L.val_grows hm₂.2 hv, hvs⟩)

end

/-! ## Calls -/

section

variable (L : D.Steady cfg) (hAgree : D.Agree inner other) (hInv : D.Inv m) (depth : Nat)

/-- A computation that is known to end normally. -/
theorem twin_after {α β : Type} {x : Eval α} {f g : α → Eval β} {Q : Machine → β → Prop}
    {a : α} {m₁ : Machine} (hx : x m = .ok a m₁) (h : D.Twin m₀ m₁ (f a) (g a) Q) :
    D.Twin m₀ m (x >>= f) (x >>= g) Q := by
  have hRun : ∀ k : α → Eval β, (x >>= k) m = k a m₁ := by
    intro k
    change EStateM.bind x k m = k a m₁
    rw [EStateM.bind, hx]
  unfold Twin
  rw [hRun, hRun]
  exact h

/-- One call deeper and back. -/
theorem twin_withCallDepth {α : Type} {x y : Eval α} {Q : Heap → α → Prop}
    (h : D.Twin (m.atDepth (m.callDepth + 1)) (m.atDepth (m.callDepth + 1)) x y
      fun m' => Q m'.heap)
    (hBack : ∀ m', D.Next (m.atDepth (m.callDepth + 1)) m' →
      D.Next m₀ (m'.atDepth (m'.callDepth - 1))) :
    D.Twin m₀ m (Eval.withCallDepth x) (Eval.withCallDepth y) fun m' => Q m'.heap := by
  obtain ⟨hSame, hEnd⟩ := h
  have hDeeper : { m with callDepth := m.callDepth + 1 } = m.atDepth (m.callDepth + 1) := rfl
  unfold Twin Eval.withCallDepth
  rw [hDeeper, hSame]
  cases hx : x (m.atDepth (m.callDepth + 1)) with
  | ok a m' =>
    rw [hx] at hEnd
    exact ⟨rfl, hBack m' hEnd.1, hEnd.2⟩
  | error s m' =>
    rw [hx] at hEnd
    exact ⟨rfl, hBack m' hEnd.1, hEnd.2⟩

/-- Entering a call always succeeds. -/
theorem enterCall_ok (closure : Closure) (self : Option ObjectId) (args : List Value)
    (m : Machine) : ∃ env m₁, Eval.enterCall closure self args m = .ok env m₁ := by
  cases self with
  | none => exact ⟨_, _, rfl⟩
  | some id => exact ⟨_, _, rfl⟩

theorem holds_checkCall (hm : D.Next m₀ m) (f : FuncDef) (received : Nat) :
    D.Holds m₀ m (Eval.checkCall cfg f received) fun m' _ =>
      m' = m ∧ f.params.length = received ∧ m.callDepth < cfg.maxCallDepth := by
  refine twin_ite (fun _ => twin_fault _ hm) fun hArity => ?_
  refine twin_bind (holds_get hm) ?_
  rintro _ m' - ⟨rfl, rfl⟩
  refine twin_ite (fun _ => twin_fault _ hm) fun hDepth => ?_
  exact twin_pure hm ⟨rfl, Decidable.not_not.mp hArity, Nat.lt_of_not_le hDepth⟩

theorem Steady.twin_callResult (L : D.Steady cfg) (hm : D.Next m₀ m) (initializer : Bool)
    {c : Completion} (hc : D.Ends m.heap c) :
    D.Holds m₀ m (Eval.callResult initializer c) fun m' v => D.Val m'.heap v := by
  cases c with
  | ret v =>
    refine twin_pure hm ?_
    cases initializer with
    | false => exact hc
    | true => exact L.plain trivial
  | throw t => exact twin_throw hm hc
  | normal | breakLoop | continueLoop => exact twin_pure hm (L.plain trivial)

include L hAgree hInv

theorem Steady.twin_stepApplyFunc {id : FuncId} {self : Option ObjectId} {args : List Value}
    (hCallee : D.Val m.heap (.callee id self)) (hArgs : ∀ v ∈ args, D.Val m.heap v) :
    D.Twin m m (Step.applyFunc cfg inner depth id self args)
      (Step.applyFunc cfg other depth id self args) fun m' v => D.Val m'.heap v := by
  refine twin_bind (holds_heap (L.here hInv)) ?_
  rintro _ m' hHere ⟨rfl, rfl⟩
  refine twin_bind (holds_checkCall hHere _ _) ?_
  rintro _ m' - ⟨rfl, hArity, hDepth⟩
  obtain ⟨env, m₁, hEnter⟩ := enterCall_ok (m'.heap.closure id) self args m'
  refine twin_after hEnter ?_
  -- the body runs from a machine that need not come after `m'` until its depth is restored
  obtain ⟨hInv₁, ⟨σ, ctx, hAt, hBody⟩, hBack⟩ := L.call hInv hCallee hArgs hArity hDepth hEnter
  refine twin_bind (P := fun m' c => D.Ends m'.heap c) ?_ ?_
  · exact twin_withCallDepth (twin_executeAll hAgree hInv₁ hAt depth hBody) hBack
  · exact fun c m₂ hm₂ hc => L.twin_callResult hm₂ _ hc

theorem Steady.twin_stepApply {callee : Value} {args : List Value}
    (hCallee : D.Val m.heap callee) (hArgs : ∀ v ∈ args, D.Val m.heap v) :
    D.Twin m m (Step.apply cfg inner depth callee args) (Step.apply cfg other depth callee args)
      fun m' v => D.Val m'.heap v := by
  have hHere := L.here hInv
  unfold Step.apply
  split
  · exact hAgree _ m hInv ⟨hCallee, hArgs⟩
  · exact hAgree _ m hInv ⟨hCallee, hArgs⟩
  · refine L.twin_callNative hHere depth (fun callee args m' hm' hv hvs => ?_) hCallee hArgs
    exact hAgree (.apply (depth + 1) callee args) m' hm' ⟨hv, hvs⟩
  · next c =>
    obtain ⟨hNext, hObject, hInit⟩ := L.newObject hInv hCallee
    refine L.twin_seq (P := fun m' id => D.Val m'.heap (.object id) ∧
      ∀ f, c.findMethod? Eval.initializerName = some f → D.Val m'.heap (.bound f id))
      (L.holds_alloc hHere hNext ⟨hObject, hInit⟩) ?_
    rintro id m₁ hm₁ ⟨hId, hMethods⟩
    have hArgs₁ : ∀ v ∈ args, D.Val m₁.heap v := fun v hv => L.val_grows hm₁.2 (hArgs v hv)
    split
    · next f hFind =>
      refine L.twin_seq (hAgree (.applyFunc depth f (some id) args) m₁ hm₁.1
        ⟨hMethods f hFind, hArgs₁⟩) fun _ m₂ hm₂ _ => ?_
      exact twin_pure (L.here hm₂.1) (L.val_grows hm₂.2 hId)
    · exact twin_ite (fun _ => twin_pure (L.here hm₁.1) hId) fun _ =>
        twin_fault _ (L.here hm₁.1)
  · exact twin_fault _ hHere

end

/-! ## Definitions of classes -/

theorem holds_defineClass {env : Env} {c : ClassDef}
    (hNext : D.Next m ((Eval.defineClass env c).final m)) :
    D.Holds m m (Eval.defineClass env c) fun _ _ => True := by
  refine ⟨rfl, ?_⟩
  unfold Eval.final at hNext
  cases hx : Eval.defineClass env c m with
  | ok a m' =>
    rw [hx] at hNext
    exact ⟨hNext, trivial⟩
  | error s m' =>
    rw [hx] at hNext
    have hPlain := Eval.plain_defineClass env c m s m' hx
    cases s with
    | thrown | failure => cases hPlain
    | _ => exact ⟨hNext, trivial⟩

/-! ## Statements -/

section

variable (L : D.Steady cfg) (hAgree : D.Agree inner other) (hInv : D.Inv m)
  {σ : D.Site} {ctx : Context} {env : Env} (hAt : D.At m.heap σ env) (depth : Nat)
include L hAgree hInv hAt

/-- A block in a scope of its own. -/
theorem Steady.twin_block {b : Block} (hCode : D.Code σ ctx (.block b)) :
    D.Twin m m
      (do let env ← Eval.enter env []; inner (.executeAll depth env b.body))
      (do let env ← Eval.enter env []; other (.executeAll depth env b.body))
      fun m' c => D.Ends m'.heap c := by
  refine L.twin_seq (L.holds_enterBlock (L.here hInv) ctx hAt) fun env' m₁ hm₁ hAt₁ => ?_
  exact twin_executeAll hAgree hm₁.1 hAt₁ depth (L.code_block hCode)

theorem Steady.twin_stepExecuteSimple {s : Simple} (hCode : D.Code σ ctx (.stmt (.simple s))) :
    D.Twin m m (Step.executeSimple inner depth env s) (Step.executeSimple other depth env s)
      fun m' c => D.Ends m'.heap c := by
  -- every form evaluates at most one expression and then declares at most one name
  have hDeclare : ∀ (id : Ident) (v : Value) (constant : Bool) (m₁ : Machine), D.Next m m₁ →
      D.Code σ ctx (.ident id) → D.Val m₁.heap v →
      D.Holds m₁ m₁ (do Eval.declare env id.name v constant; pure Completion.normal)
        fun m' c => D.Ends m'.heap c := by
    intro id v constant m₁ hm₁ hId hv
    refine twin_bind (L.holds_declare (L.here hm₁.1) (L.at_grows hm₁.2 hAt) hId hv constant) ?_
    exact fun _ m₂ hm₂ _ => twin_pure hm₂ trivial
  unfold Step.executeSimple
  split
  · next id _ =>
    have hId : D.Code σ ctx (.ident id) := L.code_simple hCode (by simp [Node.ofSimple])
    exact hDeclare id .null false m (L.here hInv) hId (L.plain trivial)
  · next id e _ =>
    have hId : D.Code σ ctx (.ident id) := L.code_simple hCode (by simp [Node.ofSimple])
    have hExpr : D.Code σ ctx (.expr e) := L.code_simple hCode (by simp [Node.ofSimple])
    refine L.twin_seq (twin_evaluate hAgree hInv hAt depth hExpr) fun v m₁ hm₁ hv => ?_
    exact hDeclare id v false m₁ hm₁ hId hv
  · next id e _ =>
    have hId : D.Code σ ctx (.ident id) := L.code_simple hCode (by simp [Node.ofSimple])
    have hExpr : D.Code σ ctx (.expr e) := L.code_simple hCode (by simp [Node.ofSimple])
    refine L.twin_seq (twin_evaluate hAgree hInv hAt depth hExpr) fun v m₁ hm₁ hv => ?_
    exact hDeclare id v true m₁ hm₁ hId hv
  · next e _ =>
    have hExpr : D.Code σ ctx (.expr e) := L.code_simple hCode (by simp [Node.ofSimple])
    refine L.twin_seq (twin_evaluate hAgree hInv hAt depth hExpr) fun _ m₁ hm₁ _ => ?_
    exact twin_pure (L.here hm₁.1) trivial

theorem Steady.twin_stepExecuteAll {body : List Stmt}
    (hCode : ∀ s ∈ body, D.Code σ ctx (.stmt s)) :
    D.Twin m m (Step.executeAll inner depth env body) (Step.executeAll other depth env body)
      fun m' c => D.Ends m'.heap c := by
  cases body with
  | nil => exact twin_pure (L.here hInv) trivial
  | cons s rest =>
    obtain ⟨hFirst, hRest⟩ := List.forall_mem_cons.mp hCode
    refine L.twin_seq (hAgree (.execute depth env s) m hInv ⟨σ, ctx, hAt, hFirst⟩) ?_
    intro c m₁ hm₁ hc
    split
    · exact twin_executeAll hAgree hm₁.1 (L.at_grows hm₁.2 hAt) depth hRest
    · exact twin_pure (L.here hm₁.1) hc

theorem Steady.twin_stepExecuteElifs {clauses : List ElifClause} {otherwise : Option Block}
    (hClauses : ∀ c ∈ clauses, D.Code σ ctx (.elif c))
    (hOtherwise : ∀ b ∈ otherwise, D.Code σ ctx (.block b)) :
    D.Twin m m (Step.executeElifs inner depth env clauses otherwise)
      (Step.executeElifs other depth env clauses otherwise) fun m' c => D.Ends m'.heap c := by
  cases clauses with
  | nil =>
    cases otherwise with
    | none => exact twin_pure (L.here hInv) trivial
    | some b => exact L.twin_block hAgree hInv hAt depth (hOtherwise b rfl)
  | cons clause rest =>
    obtain ⟨hFirst, hRest⟩ := List.forall_mem_cons.mp hClauses
    have hCondition : D.Code σ ctx (.expr clause.condition) :=
      L.code_part (q := (ctx, .expr clause.condition)) hFirst List.mem_cons_self
    have hBody : D.Code σ ctx (.block clause.body) :=
      L.code_part (q := (ctx, .block clause.body)) hFirst
        (List.mem_cons_of_mem _ List.mem_cons_self)
    refine L.twin_seq (twin_evaluate hAgree hInv hAt depth hCondition) fun v m₁ hm₁ _ => ?_
    have hAt₁ := L.at_grows hm₁.2 hAt
    refine twin_ite (fun _ => L.twin_block hAgree hm₁.1 hAt₁ depth hBody) fun _ => ?_
    exact hAgree (.executeElifs depth env rest otherwise) m₁ hm₁.1
      ⟨σ, ctx, hAt₁, hRest, hOtherwise⟩

theorem Steady.twin_stepRunWhile {condition : Expr} {body : Block}
    (hCondition : D.Code σ ctx (.expr condition)) (hBody : D.Code σ ctx.loop (.block body)) :
    D.Twin m m (Step.runWhile inner depth env condition body)
      (Step.runWhile other depth env condition body) fun m' c => D.Ends m'.heap c := by
  refine L.twin_seq (twin_evaluate hAgree hInv hAt depth hCondition) fun v m₁ hm₁ _ => ?_
  have hAt₁ := L.at_grows hm₁.2 hAt
  refine twin_ite (fun _ => ?_) fun _ => twin_pure (L.here hm₁.1) trivial
  refine L.twin_seq (L.holds_enterBlock (L.here hm₁.1) ctx hAt₁) fun bodyEnv m₂ hm₂ hAt₂ => ?_
  refine L.twin_seq (twin_executeAll hAgree hm₂.1 hAt₂ depth (L.code_block hBody)) ?_
  intro c m₃ hm₃ hc
  have hAt₃ := L.at_grows hm₃.2 (L.at_grows hm₂.2 hAt₁)
  split
  · exact twin_pure (L.here hm₃.1) trivial
  · exact twin_pure (L.here hm₃.1) hc
  · exact twin_pure (L.here hm₃.1) hc
  · exact hAgree (.runWhile depth env condition body) m₃ hm₃.1
      ⟨σ, ctx, hAt₃, hCondition, hBody⟩

theorem Steady.twin_holds {condition : Option Expr}
    (hCondition : ∀ e ∈ condition, D.Code σ ctx (.expr e)) :
    D.Twin m m (Step.holds inner depth env condition) (Step.holds other depth env condition)
      fun _ _ => True := by
  cases condition with
  | none => exact twin_pure (L.here hInv) trivial
  | some e =>
    refine L.twin_seq (twin_evaluate hAgree hInv hAt depth (hCondition e rfl)) ?_
    exact fun v m₁ hm₁ _ => twin_pure (L.here hm₁.1) trivial

theorem Steady.twin_stepRunFor {condition update : Option Expr} {body : Block}
    (hCondition : ∀ e ∈ condition, D.Code σ ctx (.expr e))
    (hUpdate : ∀ e ∈ update, D.Code σ ctx (.expr e))
    (hBody : D.Code σ ctx.loop (.block body)) :
    D.Twin m m (Step.runFor inner depth env condition update body)
      (Step.runFor other depth env condition update body) fun m' c => D.Ends m'.heap c := by
  refine L.twin_seq (L.twin_holds hAgree hInv hAt depth hCondition) fun more m₁ hm₁ _ => ?_
  have hAt₁ := L.at_grows hm₁.2 hAt
  refine twin_ite (fun _ => ?_) fun _ => twin_pure (L.here hm₁.1) trivial
  refine L.twin_seq (L.holds_enterBlock (L.here hm₁.1) ctx hAt₁) fun bodyEnv m₂ hm₂ hAt₂ => ?_
  refine L.twin_seq (twin_executeAll hAgree hm₂.1 hAt₂ depth (L.code_block hBody)) ?_
  intro c m₃ hm₃ hc
  have hAt₃ := L.at_grows hm₃.2 (L.at_grows hm₂.2 hAt₁)
  split
  · exact twin_pure (L.here hm₃.1) trivial
  · exact twin_pure (L.here hm₃.1) hc
  · exact twin_pure (L.here hm₃.1) hc
  · cases update with
    | none =>
      exact hAgree (.runFor depth env condition none body) m₃ hm₃.1
        ⟨σ, ctx, hAt₃, hCondition, hUpdate, hBody⟩
    | some e =>
      refine L.twin_seq (twin_evaluate hAgree hm₃.1 hAt₃ depth (hUpdate e rfl)) ?_
      intro _ m₄ hm₄ _
      exact hAgree (.runFor depth env condition (some e) body) m₄ hm₄.1
        ⟨σ, ctx, L.at_grows hm₄.2 hAt₃, hCondition, hUpdate, hBody⟩

/-- The handler of a thrown value. -/
theorem Steady.twin_handler {t : Thrown} {param : Ident} {handler : Block}
    (ht : D.Val m.heap t.value) (hParam : D.Code σ ctx (.ident param))
    (hHandler : D.Code σ ctx (.block handler)) :
    D.Twin m m
      (do
        let text ← Eval.display cfg (depth + 1) t.value
        Eval.debug cfg ("caught " ++ text ++ " in '" ++ param.name ++ "'")
        let catchEnv ← Eval.enter env [(param.name, ⟨t.value, false⟩)]
        inner (.executeAll (depth + 1) catchEnv handler.body))
      (do
        let text ← Eval.display cfg (depth + 1) t.value
        Eval.debug cfg ("caught " ++ text ++ " in '" ++ param.name ++ "'")
        let catchEnv ← Eval.enter env [(param.name, ⟨t.value, false⟩)]
        other (.executeAll (depth + 1) catchEnv handler.body))
      fun m' c => D.Ends m'.heap c := by
  refine twin_bind (holds_display (L.here hInv) _ _) ?_
  rintro text m' hHere rfl
  refine L.twin_seq (L.holds_modify hHere rfl rfl rfl) fun _ m₁ hm₁ _ => ?_
  refine L.twin_seq (L.holds_enter (L.here hm₁.1) ctx (L.at_grows hm₁.2 hAt) ?_) ?_
  · intro b hb
    obtain rfl := List.mem_singleton.mp hb
    exact ⟨⟨param, rfl, hParam⟩, L.val_grows hm₁.2 ht⟩
  · intro catchEnv m₂ hm₂ hAt₂
    exact twin_executeAll hAgree hm₂.1 hAt₂ _ (L.code_block hHandler)

theorem Steady.twin_stmt {s : Stmt} (hCode : D.Code σ ctx (.stmt s))
    (hClass : ∀ c, s = .cls c → D.Next m ((Eval.defineClass env c).final m)) :
    D.Twin m m (Step.stmt cfg inner depth env s) (Step.stmt cfg other depth env s)
      fun m' c => D.Ends m'.heap c := by
  have hHere := L.here hInv
  unfold Step.stmt
  split
  · next s => exact hAgree (.executeSimple (depth + 1) env s) m hInv ⟨σ, ctx, hAt, hCode⟩
  · refine twin_bind (L.holds_defineFunc hHere hAt hCode) ?_
    exact fun _ m₁ hm₁ _ => twin_pure hm₁ trivial
  · refine twin_bind (holds_defineClass (hClass _ rfl)) ?_
    exact fun _ m₁ hm₁ _ => twin_pure hm₁ trivial
  · exact L.twin_block hAgree hInv hAt _ hCode
  · next condition body elifs otherwise _ =>
    have hPart : ∀ n ∈ Node.ofStmt (.ifElse condition body elifs otherwise _), D.Code σ ctx n :=
      fun n hn => L.code_stmt hCode rfl (List.mem_map_of_mem hn)
    refine L.twin_seq (twin_evaluate hAgree hInv hAt _
      (hPart (.expr condition) (by simp [Node.ofStmt]))) ?_
    intro v m₁ hm₁ _
    have hAt₁ := L.at_grows hm₁.2 hAt
    refine twin_ite (fun _ => L.twin_block hAgree hm₁.1 hAt₁ _
      (hPart (.block body) (by simp [Node.ofStmt]))) fun _ => ?_
    exact hAgree (.executeElifs (depth + 1) env elifs otherwise) m₁ hm₁.1
      ⟨σ, ctx, hAt₁, fun c hc => hPart (.elif c) (by simp [Node.ofStmt, hc]),
        fun b hb => hPart (.block b) (by simp [Node.ofStmt, Option.mem_def.mp hb])⟩
  · next condition body _ =>
    exact hAgree (.runWhile (depth + 1) env condition body) m hInv ⟨σ, ctx, hAt,
      L.code_stmt hCode rfl (by simp [Node.stmtParts]),
      L.code_stmt hCode rfl (by simp [Node.stmtParts])⟩
  · next start condition update body _ =>
    have hStart : ∀ s ∈ start, D.Code σ ctx (.stmt (.simple s)) := by
      rintro s rfl
      exact L.code_stmt hCode rfl (by simp [Node.stmtParts])
    have hCondition : ∀ e ∈ condition, D.Code σ ctx (.expr e) := by
      rintro e rfl
      exact L.code_stmt hCode rfl (by simp [Node.stmtParts])
    have hUpdate : ∀ e ∈ update, D.Code σ ctx (.expr e) := by
      rintro e rfl
      exact L.code_stmt hCode rfl (by simp [Node.stmtParts])
    have hBody : D.Code σ ctx.loop (.block body) :=
      L.code_stmt hCode rfl (by simp [Node.stmtParts])
    refine L.twin_seq (L.holds_enterBlock hHere ctx hAt) fun loopEnv m₁ hm₁ hAt₁ => ?_
    split
    · exact hAgree (.runFor (depth + 1) loopEnv condition update body) m₁ hm₁.1
        ⟨σ, ctx, hAt₁, hCondition, hUpdate, hBody⟩
    · next s =>
      refine L.twin_seq (hAgree (.execute (depth + 1) loopEnv (.simple s)) m₁ hm₁.1
        ⟨σ, ctx, hAt₁, hStart s rfl⟩) fun c m₂ hm₂ hc => ?_
      split
      · exact hAgree (.runFor (depth + 1) loopEnv condition update body) m₂ hm₂.1
          ⟨σ, ctx, L.at_grows hm₂.2 hAt₁, hCondition, hUpdate, hBody⟩
      · exact twin_pure (L.here hm₂.1) hc
  · exact twin_pure hHere trivial
  · exact twin_pure hHere trivial
  · exact twin_pure hHere (L.plain trivial)
  · next e _ =>
    have hExpr : D.Code σ ctx (.expr e) :=
      L.code_stmt hCode rfl (by simp [Node.stmtParts, Node.ofStmt])
    refine L.twin_seq (twin_evaluate hAgree hInv hAt _ hExpr) ?_
    exact fun v m₁ hm₁ hv => twin_pure (L.here hm₁.1) hv
  · next body param handler _ =>
    have hPart : ∀ n ∈ [Node.block body, .ident param, .block handler], D.Code σ ctx n :=
      fun n hn => L.code_stmt hCode rfl (List.mem_map_of_mem hn)
    refine L.twin_seq (L.holds_enterBlock hHere ctx hAt) fun tryEnv m₁ hm₁ hAt₁ => ?_
    refine L.twin_seq (twin_executeAll hAgree hm₁.1 hAt₁ _
      (L.code_block (hPart (.block body) (by simp)))) fun c m₂ hm₂ hc => ?_
    split
    · next t =>
      exact L.twin_handler hAgree hm₂.1 (L.at_grows hm₂.2 (L.at_grows hm₁.2 hAt)) depth hc
        (hPart (.ident param) (by simp)) (hPart (.block handler) (by simp))
    · exact twin_pure (L.here hm₂.1) hc
  · next e _ =>
    have hExpr : D.Code σ ctx (.expr e) :=
      L.code_stmt hCode rfl (by simp [Node.stmtParts, Node.ofStmt])
    refine L.twin_seq (twin_evaluate hAgree hInv hAt _ hExpr) ?_
    exact fun v m₁ hm₁ hv => twin_pure (L.here hm₁.1) hv

theorem Steady.twin_stepExecute {s : Stmt} (hCode : D.Code σ ctx (.stmt s))
    (hClass : cfg.isFull depth = false → ∀ c, s = .cls c →
      D.Next m ((Eval.defineClass env c).final m)) :
    D.Twin m m (Step.execute cfg inner depth env s) (Step.execute cfg other depth env s)
      fun m' c => D.Ends m'.heap c :=
  L.twin_guarded _ (twin_ite (fun _ => twin_overflow (L.here hInv)) fun hRoom =>
    L.twin_stmt hAgree hInv hAt depth hCode (hClass (Bool.eq_false_iff.mpr hRoom)))

end

/-! ## Steps and runs -/

/-- A step made with workers that agree. If it defines a class, that has to be allowed. -/
theorem Steady.twin_step (L : D.Steady cfg) (hAgree : D.Agree inner other) {t : Task}
    (hInv : D.Inv m) (hFits : D.Fits m.heap t)
    (hClass : ∀ depth env c, t = .execute depth env (.cls c) → cfg.isFull depth = false →
      D.Next m ((Eval.defineClass env c).final m)) :
    D.Twin m m (step cfg inner t) (step cfg other t) fun m' => D.Yields m'.heap t := by
  cases t with
  | evaluate depth env e =>
    obtain ⟨σ, ctx, hAt, hCode⟩ := hFits
    exact L.twin_stepEvaluate hAgree hInv hAt depth hCode
  | evaluateAll depth env es =>
    obtain ⟨σ, ctx, hAt, hCode⟩ := hFits
    exact L.twin_stepEvaluateAll hAgree hInv hAt depth hCode
  | apply depth callee args =>
    exact L.twin_stepApply hAgree hInv depth hFits.1 hFits.2
  | applyFunc depth id self args =>
    exact L.twin_stepApplyFunc hAgree hInv depth hFits.1 hFits.2
  | execute depth env s =>
    obtain ⟨σ, ctx, hAt, hCode⟩ := hFits
    exact L.twin_stepExecute hAgree hInv hAt depth hCode fun hRoom c hc =>
      hClass depth env c (by rw [hc]) hRoom
  | executeSimple depth env s =>
    obtain ⟨σ, ctx, hAt, hCode⟩ := hFits
    exact L.twin_stepExecuteSimple hAgree hInv hAt depth hCode
  | executeAll depth env body =>
    obtain ⟨σ, ctx, hAt, hCode⟩ := hFits
    exact L.twin_stepExecuteAll hAgree hInv hAt depth hCode
  | executeElifs depth env clauses otherwise =>
    obtain ⟨σ, ctx, hAt, hClauses, hOtherwise⟩ := hFits
    exact L.twin_stepExecuteElifs hAgree hInv hAt depth hClauses hOtherwise
  | runWhile depth env condition body =>
    obtain ⟨σ, ctx, hAt, hCondition, hBody⟩ := hFits
    exact L.twin_stepRunWhile hAgree hInv hAt depth hCondition hBody
  | runFor depth env condition update body =>
    obtain ⟨σ, ctx, hAt, hCondition, hUpdate, hBody⟩ := hFits
    exact L.twin_stepRunFor hAgree hInv hAt depth hCondition hUpdate hBody

/-- Steps made with workers that agree agree themselves. -/
theorem Lawful.agree_step (L : D.Lawful cfg) (hAgree : D.Agree inner other) :
    D.Agree (step cfg inner) (step cfg other) := by
  intro t m hInv hFits
  refine L.twin_step hAgree hInv hFits ?_
  rintro depth env c rfl -
  obtain ⟨σ, ctx, hAt, hCode⟩ := hFits
  exact L.defineClass hInv hAt hCode

/-- Runs keep the discipline. -/
theorem Lawful.agree_run (L : D.Lawful cfg) (fuel : Nat) :
    D.Agree (run cfg fuel) (run cfg fuel) := by
  induction fuel with
  | zero => exact fun t m hInv _ => twin_throw (L.here hInv) trivial
  | succ fuel ih => exact L.agree_step ih

/-- A run of an admitted task leads to a machine that may come next. -/
theorem Lawful.next_run (L : D.Lawful cfg) (fuel : Nat) {t : Task} (hInv : D.Inv m)
    (hFits : D.Fits m.heap t) : D.Next m ((run cfg fuel t).final m) :=
  (L.agree_run fuel t m hInv hFits).next

end Discipline

end Tern
