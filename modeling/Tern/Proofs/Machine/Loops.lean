import Tern.Proofs.Machine.Alignment
import Tern.Proofs.Machine.ControlFlow
import Tern.Proofs.Machine.Settling

/-!
# Loops

A `for` loop is a `while` loop in a block of its own, with what starts it before and its update at
the end of each round. The two do not make the same scopes: in the `while` loop each round has a
scope for the body and the update together, and nothing is ever declared there. What the body
captures is therefore the same up to idle scopes, and so is everything else. Where the body
continues the loop the two differ, since the `for` loop still runs its update.

* `Stmt.forAsWhile`: the block with the `while` loop;
* `Loop.tracks_loop`: the rounds of the two loops, side by side;
* `forLoop_agrees_while`: either statement ends if the other one does, and they end alike.
-/

namespace Tern

/-! ## The two statements -/

/-- The places of a `while` loop that is made of a `for` loop: those of the block, of the loop, of
its body, of the update as a statement, and of the condition if there is none. -/
structure LoopSpans where
  block : Option Span
  loop : Option Span
  body : Option Span
  update : Option Span
  truth : Option Span

/-- The update of a loop as a statement. -/
def LoopSpans.updates (p : LoopSpans) (update : Option Expr) : List Stmt :=
  (update.map fun e => .simple (.expr e p.update)).toList

/-- A body with the update after it. -/
def Block.withUpdate (p : LoopSpans) (body : Block) (update : Option Expr) : Block :=
  ⟨.block body :: p.updates update, p.body⟩

/-- The `while` loop of a `for` loop. -/
def Stmt.whileOfFor (p : LoopSpans) (condition update : Option Expr) (body : Block) : Stmt :=
  .whileLoop (condition.getD (.boolean true p.truth)) (body.withUpdate p update) p.loop

/-- A `for` loop as a block with a `while` loop. -/
def Stmt.forAsWhile (p : LoopSpans) (start : Option Simple) (condition update : Option Expr)
    (body : Block) : Stmt :=
  .block ⟨(start.map .simple).toList ++ [.whileOfFor p condition update body], p.block⟩

namespace Eval

/-- A statement, and then the rest. -/
def andThen (rest : Eval Completion) : Completion → Eval Completion
  | .normal => rest
  | c => pure c

/-- What a loop does after a round. -/
def afterRound (again : Eval Completion) : Completion → Eval Completion
  | .normal | .continueLoop => again
  | .breakLoop => pure .normal
  | .ret v => pure (.ret v)
  | .throw t => pure (.throw t)

/-- What starts a loop, if anything does, and then the rest. -/
def afterStart (inner : Worker) (depth : Nat) (env : Env) (start : Option Simple)
    (rest : Eval Completion) : Eval Completion :=
  match start with
  | none => rest
  | some s => inner (.execute depth env (.simple s)) >>= andThen rest

/-- The update of a loop, if there is one, and then the rest. -/
def afterUpdate (inner : Worker) (depth : Nat) (env : Env) (update : Option Expr)
    (rest : Eval Completion) : Eval Completion :=
  match update with
  | none => rest
  | some e => do
    let _ ← inner (.evaluate depth env e)
    rest

theorem andThen_normal : andThen (pure .normal) = pure := by
  funext c
  cases c <;> rfl

theorem passesThrows_andThen (rest : Eval Completion) : PassesThrows (andThen rest) :=
  fun _ => rfl

/-- What is left of a round after a statement of it. -/
theorem passesThrows_afterRound (rest again : Eval Completion) :
    PassesThrows fun c => andThen rest c >>= afterRound again :=
  fun _ => rfl

end Eval

/-! ## One step into a run -/

section

open Eval

variable (cfg : Settings) (fuel depth : Nat) (env : Env)

theorem run_executeAll_nil : run cfg (fuel + 1) (.executeAll depth env []) = pure .normal := rfl

theorem run_executeAll_cons (s : Stmt) (rest : List Stmt) :
    run cfg (fuel + 1) (.executeAll depth env (s :: rest)) =
      run cfg fuel (.execute depth env s) >>=
        andThen (run cfg fuel (.executeAll depth env rest)) := by
  refine bind_congr fun c => ?_
  cases c <;> rfl

theorem run_runWhile (condition : Expr) (body : Block) :
    run cfg (fuel + 1) (.runWhile depth env condition body) = (do
      let v ← run cfg fuel (.evaluate depth env condition)
      if v.isTruthy then
        let bodyEnv ← enter env []
        run cfg fuel (.executeAll depth bodyEnv body.body) >>=
          afterRound (run cfg fuel (.runWhile depth env condition body))
      else pure .normal) := by
  refine bind_congr fun v => ite_congr rfl (fun _ => ?_) fun _ => rfl
  refine bind_congr fun bodyEnv => bind_congr fun c => ?_
  cases c <;> rfl

theorem run_runFor (condition update : Option Expr) (body : Block) :
    run cfg (fuel + 1) (.runFor depth env condition update body) = (do
      let more ← Step.holds (run cfg fuel) depth env condition
      if more then
        let bodyEnv ← enter env []
        run cfg fuel (.executeAll depth bodyEnv body.body) >>=
          afterRound (afterUpdate (run cfg fuel) depth env update
            (run cfg fuel (.runFor depth env condition update body)))
      else pure .normal) := by
  refine bind_congr fun more => ite_congr rfl (fun _ => ?_) fun _ => rfl
  refine bind_congr fun bodyEnv => bind_congr fun c => ?_
  cases c <;> cases update <;> rfl

variable {cfg} (hLimit : cfg.stackLimit = none)
include hLimit

omit fuel env in
theorem isFull_of_unlimited : cfg.isFull depth = false := by
  unfold Settings.isFull
  rw [hLimit]

theorem run_evaluate_boolean (b : Bool) (span : Option Span) :
    run cfg (fuel + 1) (.evaluate depth env (.boolean b span)) = pure (.bool b) := by
  change (if cfg.isFull depth then _ else _) = _
  rw [isFull_of_unlimited depth hLimit]
  rfl

theorem run_execute (s : Stmt) :
    run cfg (fuel + 1) (.execute depth env s) =
      guarded s.span (Step.stmt cfg (run cfg fuel) depth env s) := by
  change guarded s.span (if cfg.isFull depth then _ else _) = _
  rw [isFull_of_unlimited depth hLimit]
  rfl

theorem run_execute_block (b : Block) :
    run cfg (fuel + 1) (.execute depth env (.block b)) = guarded b.span (do
      let env ← enter env []
      run cfg fuel (.executeAll (depth + 1) env b.body)) :=
  run_execute fuel depth env hLimit (.block b)

theorem run_execute_expr (e : Expr) (span : Option Span) :
    run cfg (fuel + 2) (.execute depth env (.simple (.expr e span))) = guarded span (do
      let _ ← run cfg fuel (.evaluate (depth + 1) env e)
      pure .normal) :=
  run_execute (fuel + 1) depth env hLimit (.simple (.expr e span))

theorem run_execute_for (start : Option Simple) (condition update : Option Expr) (body : Block)
    (span : Option Span) :
    run cfg (fuel + 1) (.execute depth env (.forLoop start condition update body span)) =
      guarded span (do
        let loopEnv ← enter env []
        afterStart (run cfg fuel) (depth + 1) loopEnv start
          (run cfg fuel (.runFor (depth + 1) loopEnv condition update body))) := by
  rw [run_execute fuel depth env hLimit]
  refine congrArg (guarded span) (bind_congr fun loopEnv => ?_)
  cases start with
  | none => rfl
  | some s =>
    refine bind_congr fun c => ?_
    cases c <;> rfl

end

/-! ## Side by side -/

namespace Loop

open Eval Simulation

variable {cfg : Settings} (hLimit : cfg.stackLimit = none) {first second : Prop} {A : Alignment}
  {n k depth depth' : Nat} {env env' : Env}
include hLimit

/-- A scope that only the second run makes. -/
theorem tracks_idle {α β : Type} {Q : Alignment → α → β → Prop} {x : Eval α} {f : Env → Eval β}
    (hSees : A.Aligns env.scopes env'.scopes)
    (hf : ∀ A' idleEnv, A.Later A' → A'.Aligns env.scopes idleEnv.scopes →
      (alignment first second).Tracks A' Q x (f idleEnv)) :
    (alignment first second).Tracks A Q x (enter env' [] >>= f) := by
  intro m m' hm
  have hLater := A.later_add none
  have hIdle : (A.add none).Idle m'.heap.scopes.size := by
    have hSize := hm.heaps.size
    rw [← hSize]
    exact A.idle_add_self
  have hMachines : (alignment first second).Machines (A.add none) m
      (m'.withHeap (m'.heap.newScope []).2) :=
    ⟨hm.heaps.newIdle, hm.console, hm.log, hm.callDepth, hm.executed⟩
  exact Ends.earlier (alignment_lawful hLimit first second) hLater
    (hf _ (env'.extend m'.heap.scopes.size) hLater (.idle hIdle (hSees.mono hLater)) _ _ hMachines)

section

variable (hFirst : n < k → first) (hSecond : k < n → second)
include hFirst hSecond

theorem tracks_evaluate (hSees : A.Aligns env.scopes env'.scopes) (e : Expr) :
    (alignment first second).Tracks A (alignment first second).Same
      (run cfg n (.evaluate depth env e)) (run cfg k (.evaluate depth' env' e)) := by
  have hPaces := paces_run (alignment_lawful hLimit first second) hFirst hSecond
  have hTracks := @hPaces.evaluate _ depth depth' _ _ trivial hSees e
  rwa [show e.respan (alignment first second).veil.span = e from Expr.respan_id e] at hTracks

theorem tracks_execute (hStands : (alignment first second).Stands A env env') (s : Stmt) :
    (alignment first second).Tracks A (alignment first second).Completes
      (run cfg n (.execute depth env s)) (run cfg k (.execute depth' env' s)) := by
  have hPaces := paces_run (alignment_lawful hLimit first second) hFirst hSecond
  have hTracks := @hPaces.execute _ depth depth' _ _ trivial hStands s
  rwa [show s.respan (alignment first second).veil.span = s from Stmt.respan_id s] at hTracks

theorem tracks_executeAll (hStands : (alignment first second).Stands A env env')
    (body : List Stmt) :
    (alignment first second).Tracks A (alignment first second).Completes
      (run cfg n (.executeAll depth env body)) (run cfg k (.executeAll depth' env' body)) := by
  have hPaces := paces_run (alignment_lawful hLimit first second) hFirst hSecond
  have hTracks := @hPaces.executeAll _ depth depth' _ _ trivial hStands body
  have hBody : body.map (Stmt.respan (alignment first second).veil.span) = body := by
    rw [← Stmt.respanAll_eq]
    exact Stmt.respanAll_id body
  rwa [hBody] at hTracks

end

/-! ### Rounds

The `while` loop needs up to four steps more than the `for` loop in each round: one for each of the
statements that it is made of. -/

section

variable (hFirst : n < k → first)
include hFirst

/-- A loop without a condition goes on as long as `true` holds. -/
theorem tracks_condition (hSecond : k < n + 4 → second) (hSees : A.Aligns env.scopes env'.scopes)
    (p : LoopSpans) (condition : Option Expr) :
    (alignment first second).Tracks A (fun _ more v => v.isTruthy = more)
      (Step.holds (run cfg n) depth env condition)
      (run cfg k (.evaluate depth' env' (condition.getD (.boolean true p.truth)))) := by
  have L := alignment_lawful hLimit first second
  cases condition with
  | none =>
    cases k with
    | zero => exact tracks_of_spent (spent_run_zero cfg _) (hSecond (Nat.succ_pos _))
    | succ k =>
      rw [Option.getD_none, run_evaluate_boolean k depth' env' hLimit]
      exact tracks_pure L rfl
  | some e =>
    have hSecond' : k < n → second := fun h => hSecond (by omega)
    rw [Option.getD_some, ← bind_pure (run cfg k _)]
    refine tracks_then L (tracks_evaluate hLimit hFirst hSecond' hSees e) fun w' _ v => ?_
    exact tracks_pure L rfl

/-- The update of a `for` loop, and the update as the last statement of a round. -/
theorem tracks_update (hSecond : k < n + 3 → second) (hSees : A.Aligns env.scopes env'.scopes)
    (p : LoopSpans) (update : Option Expr) {next again : Eval Completion}
    (hNext : ∀ A', A.Later A' → (alignment first second).Tracks A' (alignment first second).Same
      (settled next) (settled again)) :
    (alignment first second).Tracks A (alignment first second).Same
      (settled (afterUpdate (run cfg n) depth env update next))
      (settled (run cfg k (.executeAll depth' env' (p.updates update)) >>= afterRound again)) := by
  have L := alignment_lawful hLimit first second
  cases k with
  | zero => exact tracks_of_spent ((spent_run_zero cfg _).bind _).settled (hSecond (by omega))
  | succ k =>
    cases update with
    | none => exact hNext A (.refl A)
    | some e =>
      change Tracks _ _ _ _ (settled (run cfg (k + 1) (.executeAll _ _ [_]) >>= _))
      rw [run_executeAll_cons, bind_assoc]
      cases k with
      | zero => exact tracks_of_spent ((spent_run_zero cfg _).bind _).settled (hSecond (by omega))
      | succ k =>
        cases k with
        | zero =>
          rw [run_execute 0 depth' env' hLimit,
            settled_guarded_bind _ _ (passesThrows_afterRound _ _)]
          exact tracks_of_spent ((spent_run_zero cfg _).bind _).settled (hSecond (by omega))
        | succ k =>
          rw [run_execute_expr k depth' env' hLimit,
            settled_guarded_bind _ _ (passesThrows_afterRound _ _), bind_assoc]
          refine tracks_settled_bind L (tracks_evaluate hLimit (fun h => hFirst (by omega))
            (fun h => hSecond (by omega)) hSees e) fun A' hLater _ _ _ => ?_
          rw [pure_bind]
          exact hNext A' hLater

/-- A round of the two loops. The body must not continue the loop, for then the `while` loop would
leave out the update. -/
theorem tracks_round (hSecond : k < n + 4 → second) (hSees : A.Aligns env.scopes env'.scopes)
    (p : LoopSpans) (update : Option Expr) {body : Block} (hBody : ¬body.Jumps .continueLoop)
    {next again : Eval Completion}
    (hNext : ∀ A', A.Later A' → (alignment first second).Tracks A' (alignment first second).Same
      (settled next) (settled again)) :
    (alignment first second).Tracks A (alignment first second).Same
      (settled (do
        let bodyEnv ← enter env []
        run cfg n (.executeAll depth bodyEnv body.body) >>=
          afterRound (afterUpdate (run cfg n) depth env update next)))
      (settled (do
        let bodyEnv ← enter env' []
        run cfg k (.executeAll depth' bodyEnv (body.withUpdate p update).body) >>=
          afterRound again)) := by
  have L := alignment_lawful hLimit first second
  -- the first scope of a round is idle; the one that the block of the body makes has its partner
  rw [settled_enter_bind env']
  refine tracks_idle hLimit hSees fun A₁ idleEnv hLater₁ hIdle => ?_
  change Tracks _ _ _ _ (settled (run cfg k (.executeAll _ _ (_ :: _)) >>= _))
  cases k with
  | zero => exact tracks_of_spent ((spent_run_zero cfg _).bind _).settled (hSecond (by omega))
  | succ k =>
    rw [run_executeAll_cons, bind_assoc]
    cases k with
    | zero => exact tracks_of_spent ((spent_run_zero cfg _).bind _).settled (hSecond (by omega))
    | succ k =>
      rw [run_execute_block k depth' idleEnv hLimit,
        settled_guarded_bind _ _ (passesThrows_afterRound _ _), bind_assoc]
      refine tracks_settled_bind L (tracks_enter L hIdle []) fun A₂ hLater₂ bodyEnv _ hStands => ?_
      refine tracks_settled_bind L (tracks_returns
        (tracks_executeAll hLimit (fun h => hFirst (by omega)) (fun h => hSecond (by omega))
          hStands body.body)
        (Task.jumps_run cfg n (.executeAll depth bodyEnv body.body))) fun A₃ hLater₃ c c' hEnd => ?_
      obtain ⟨hSame, hJumps⟩ := hEnd
      obtain rfl : c' = c := hSame.trans (Disguise.completion_transparent c)
      cases c' with
      | normal =>
        have hLater := (hLater₁.trans hLater₂).trans hLater₃
        refine tracks_update hLimit (fun h => hFirst (by omega)) (fun h => hSecond (by omega)) ?_ p
          update fun A' hLater' => hNext A' (hLater.trans hLater')
        exact hIdle.mono (hLater₂.trans hLater₃)
      | continueLoop => exact absurd (hJumps .continueLoop rfl) hBody
      | breakLoop | ret | throw => exact tracks_settled_pure L _

end

/-- The rounds of the two loops. -/
theorem tracks_loop (p : LoopSpans) (condition update : Option Expr) {body : Block}
    (hBody : ¬body.Jumps .continueLoop) (hFirst : n < k → first) (hSecond : k < n + 4 → second)
    (hStands : (alignment first second).Stands A env env') :
    (alignment first second).Tracks A (alignment first second).Same
      (settled (run cfg n (.runFor depth env condition update body)))
      (settled (run cfg k (.runWhile depth' env' (condition.getD (.boolean true p.truth))
        (body.withUpdate p update)))) := by
  have L := alignment_lawful hLimit first second
  -- on the steps of the `for` loop; both the slack and the environments outlast a round
  induction n generalizing k A with
  | zero =>
    cases k with
    | zero => exact tracks_throw L .exhausted
    | succ k => exact fun _ _ _ => .first (hFirst (Nat.succ_pos k))
  | succ n ih =>
    cases k with
    | zero => exact tracks_of_spent (spent_run_zero cfg _).settled (hSecond (by omega))
    | succ k =>
      have hFirst' : n < k → first := fun h => hFirst (Nat.succ_lt_succ h)
      have hSecond' : k < n + 4 → second := fun h => hSecond (by omega)
      have hSees := L.sees hStands
      rw [run_runFor, run_runWhile]
      refine tracks_settled_bind L (tracks_condition hLimit hFirst' hSecond' hSees p condition) ?_
      rintro A₁ hLater₁ _ v rfl
      by_cases hTruthy : v.isTruthy
      · rw [if_pos hTruthy, if_pos hTruthy]
        refine tracks_round hLimit hFirst' hSecond' (hSees.mono hLater₁) p update hBody ?_
        intro A₂ hLater₂
        exact ih hFirst' hSecond' (L.stands_later (hLater₁.trans hLater₂) hStands)
      · rw [if_neg hTruthy, if_neg hTruthy]
        exact tracks_settled_pure L .normal

/-! ### Whole loops -/

/-- The `while` loop as the last statement of its block. -/
theorem tracks_last (p : LoopSpans) (condition update : Option Expr) {body : Block}
    (hBody : ¬body.Jumps .continueLoop) (hFirst : n < k → first) (hSecond : k < n + 6 → second)
    (hStands : (alignment first second).Stands A env env') :
    (alignment first second).Tracks A (alignment first second).Same
      (settled (run cfg n (.runFor depth env condition update body)))
      (settled (run cfg k (.executeAll depth' env' [.whileOfFor p condition update body]))) := by
  cases k with
  | zero => exact tracks_of_spent (spent_run_zero cfg _).settled (hSecond (by omega))
  | succ k =>
    rw [run_executeAll_cons]
    cases k with
    | zero => exact tracks_of_spent ((spent_run_zero cfg _).bind _).settled (hSecond (by omega))
    | succ k =>
      rw [run_execute k depth' env' hLimit, settled_guarded_bind _ _ (passesThrows_andThen _),
        run_executeAll_nil, andThen_normal, bind_pure]
      exact tracks_loop hLimit p condition update hBody (fun h => hFirst (by omega))
        (fun h => hSecond (by omega)) hStands

/-- The two statements. -/
theorem tracks_forLoop (p : LoopSpans) (start : Option Simple) (condition update : Option Expr)
    {body : Block} (span : Option Span) (hBody : ¬body.Jumps .continueLoop)
    (hFirst : n < k → first) (hSecond : k < n + 7 → second)
    (hSees : A.Aligns env.scopes env'.scopes) :
    (alignment first second).Tracks A (alignment first second).Same
      (settled (run cfg n (.execute depth env (.forLoop start condition update body span))))
      (settled (run cfg k (.execute depth' env' (.forAsWhile p start condition update body)))) := by
  have L := alignment_lawful hLimit first second
  cases n with
  | zero =>
    cases k with
    | zero => exact tracks_throw L .exhausted
    | succ k => exact fun _ _ _ => .first (hFirst (Nat.succ_pos k))
  | succ n =>
    cases k with
    | zero => exact tracks_of_spent (spent_run_zero cfg _).settled (hSecond (by omega))
    | succ k =>
      have hFirst' : n < k → first := fun h => hFirst (Nat.succ_lt_succ h)
      have hSecond' : k < n + 7 → second := fun h => hSecond (by omega)
      rw [run_execute_for n depth env hLimit, Stmt.forAsWhile,
        run_execute_block k depth' env' hLimit, settled_guarded, settled_guarded]
      refine tracks_settled_bind L (tracks_enter L hSees []) fun A₁ _ loopEnv loopEnv' hStands => ?_
      cases start with
      | none =>
        exact tracks_last hLimit p condition update hBody hFirst' (fun h => hSecond' (by omega))
          hStands
      | some s =>
        change Tracks _ _ _ _ (settled (run cfg k (.executeAll _ _ (_ :: _))))
        cases k with
        | zero => exact tracks_of_spent (spent_run_zero cfg _).settled (hSecond' (by omega))
        | succ k =>
          rw [run_executeAll_cons]
          refine tracks_settled_bind L (tracks_execute hLimit (fun h => hFirst' (by omega))
            (fun h => hSecond' (by omega)) hStands (.simple s)) fun A₂ hLater₂ c c' hSame => ?_
          obtain rfl : c' = c := hSame.trans (Disguise.completion_transparent c)
          cases c' with
          | normal =>
            exact tracks_last hLimit p condition update hBody (fun h => hFirst' (by omega))
              (fun h => hSecond' (by omega)) (L.stands_later hLater₂ hStands)
          | _ => exact tracks_settled_pure L _

end Loop

/-! ## The statements from outside -/

/-- The settings with a host whose stack never runs out. -/
def Settings.unbounded (cfg : Settings) : Settings := { cfg with stackLimit := none }

/-- The computation came to an end within its steps. -/
def Eval.Finished {α : Type} (r : EStateM.Result Signal Machine α) : Prop :=
  ∀ m, r ≠ .error .exhausted m

/-- Machines that are the same but for scopes that were made after the first `n`. Those correspond,
up to idle ones, and so do the environments of functions. -/
structure Machine.SameSince (n : Nat) (m m' : Machine) : Prop where
  console : m'.console = m.console
  log : m'.log = m.log
  callDepth : m'.callDepth = m.callDepth
  executed : m'.executed = m.executed
  arrays : m'.heap.arrays = m.heap.arrays
  objects : m'.heap.objects = m.heap.objects
  scope : ∀ i < n, m'.heap.scope i = m.heap.scope i
  aligned : ∃ A : Alignment, (∀ i < n, A.Pairs i i) ∧ m.heap.Aligned A m'.heap

/-- Two statements end alike: in the same completion up to the places of errors, or in the same
signal, and with machines that are the same but for new scopes. -/
inductive Stmt.EndAlike (n : Nat) :
    EStateM.Result Signal Machine Completion → EStateM.Result Signal Machine Completion → Prop
  | completion {c c' : Completion} {m m' : Machine} (same : c'.bare = c.bare)
      (machines : m.SameSince n m') : EndAlike n (.ok c m) (.ok c' m')
  | signal {s : Signal} {m m' : Machine} (machines : m.SameSince n m') :
      EndAlike n (.error s m) (.error s m')

/-- The host's stack does not run out while the statement is executed: whatever the number of steps,
it is executed as it is without a limit. -/
def Stmt.HasRoom (cfg : Settings) (depth : Nat) (env : Env) (m : Machine) (s : Stmt) : Prop :=
  ∀ fuel, execute cfg fuel depth env s m = execute cfg.unbounded fuel depth env s m

/-- Two statements are executed alike: one ends if the other one does, and then they end alike. -/
def Stmt.Agree (cfg : Settings) (depth : Nat) (env : Env) (m : Machine) (s s' : Stmt) : Prop :=
  ((∃ n, Eval.Finished (execute cfg n depth env s m)) ↔
    ∃ k, Eval.Finished (execute cfg k depth env s' m)) ∧
  ∀ n k, Eval.Finished (execute cfg n depth env s m) →
    Eval.Finished (execute cfg k depth env s' m) →
    Stmt.EndAlike m.heap.scopes.size (execute cfg n depth env s m) (execute cfg k depth env s' m)

namespace Eval

theorem finished_settle {r : EStateM.Result Signal Machine Completion} :
    Finished (settle r) ↔ Finished r := by
  cases r with
  | ok => exact ⟨fun _ _ => nofun, fun _ _ => nofun⟩
  | error s m =>
    cases s with
    | fault | thrown | overflow => exact ⟨fun _ _ => nofun, fun _ _ => nofun⟩
    | failure | exhausted => exact Iff.rfl

theorem settle_final {s : Signal} (hFinal : s.Final) (m : Machine) :
    settle (.error s m) = .error s m := by
  cases s with
  | fault | thrown | overflow => exact hFinal.elim
  | failure | exhausted => rfl

end Eval

namespace Simulation.Ends

open Eval

variable {S : Simulation} {w : S.World} {α β : Type} {Q : S.World → α → β → Prop}
  {r : EStateM.Result Signal Machine α} {r' : EStateM.Result Signal Machine β}

/-- If the first computation comes to an end and the second may not tire, it comes to an end. -/
theorem finished_second (h : S.Ends w Q r r') (hEnd : Finished r) (hSecond : ¬S.secondMayTire) :
    Finished r' := by
  cases h with
  | ok => exact fun _ => nofun
  | @error _ s m m' later machines =>
    cases s with
    | exhausted => exact absurd rfl (hEnd m)
    | _ => exact fun _ => nofun
  | first => exact absurd rfl (hEnd _)
  | second tires => exact absurd tires hSecond

theorem finished_first (h : S.Ends w Q r r') (hEnd : Finished r') (hFirst : ¬S.firstMayTire) :
    Finished r := by
  cases h with
  | ok => exact fun _ => nofun
  | @error _ s m m' later machines =>
    cases s with
    | exhausted => exact absurd rfl (hEnd m')
    | _ => exact fun _ => nofun
  | first tires => exact absurd tires hFirst
  | second => exact absurd rfl (hEnd _)

end Simulation.Ends

/-- Machines that correspond since some scopes were there are the same but for newer scopes. -/
theorem Machine.SameSince.of_machines {first second : Prop} {A : Alignment} {n : Nat}
    {m m' : Machine} (hLater : (Alignment.whole n).Later A)
    (hm : (alignment first second).Machines A m m') : m.SameSince n m' where
  console := hm.console
  log := hm.log
  callDepth := hm.callDepth
  executed := hm.executed
  arrays := hm.heaps.arrays
  objects := hm.heaps.objects
  scope _ hi := hm.heaps.scope (hLater _ _ (Alignment.pairs_whole hi))
  aligned := ⟨A, fun _ hi => hLater _ _ (Alignment.pairs_whole hi), hm.heaps⟩

/-- Statements leave only final signals, so they end alike if they do once failures have settled. -/
theorem Stmt.endAlike_of_ends {first second : Prop} {n : Nat}
    {r r' : EStateM.Result Signal Machine Completion}
    (hFinal : ∀ s m, r = .error s m → s.Final) (hFinal' : ∀ s m, r' = .error s m → s.Final)
    (hEnd : Eval.Finished r) (hEnd' : Eval.Finished r')
    (hEnds : (alignment first second).Ends (.whole n) (alignment first second).Same
      (Eval.settle r) (Eval.settle r')) : Stmt.EndAlike n r r' := by
  cases r with
  | ok c m =>
    cases r' with
    | ok c' m' =>
      cases hEnds with
      | ok later same machines => exact .completion same (.of_machines later machines)
    | error s m' =>
      rw [Eval.settle_final (hFinal' s m' rfl)] at hEnds
      cases hEnds with
      | second => exact absurd rfl (hEnd' _)
  | error s m =>
    rw [Eval.settle_final (hFinal s m rfl)] at hEnds
    cases r' with
    | ok c' m' =>
      cases hEnds with
      | first => exact absurd rfl (hEnd _)
    | error s' m' =>
      rw [Eval.settle_final (hFinal' s' m' rfl)] at hEnds
      cases hEnds with
      | error later machines =>
        have hSame : (alignment first second).veil.signal s = s := Disguise.signal_transparent s
        rw [hSame]
        exact .signal (.of_machines later machines)
      | first => exact absurd rfl (hEnd _)
      | second => exact absurd rfl (hEnd' _)

section

open Eval Simulation

variable {cfg : Settings} (depth : Nat) {env : Env} {m : Machine} (p : LoopSpans)
  (start : Option Simple) (condition update : Option Expr) {body : Block} (span : Option Span)
  (hLimit : cfg.stackLimit = none) (hEnv : m.heap.Spans env)
  (hClosures : ∀ i, m.heap.Spans (m.heap.closure i).env) (hBody : ¬body.Jumps .continueLoop)
include hLimit hEnv hClosures hBody

/-- The ends of the two statements, when one is given `n` steps and the other one `k`. -/
theorem Loop.ends_forLoop (first second : Prop) (n k : Nat) (hFirst : n < k → first)
    (hSecond : k < n + 7 → second) :
    (alignment first second).Ends (.whole m.heap.scopes.size) (alignment first second).Same
      (settle (execute cfg n depth env (.forLoop start condition update body span) m))
      (settle (execute cfg k depth env (.forAsWhile p start condition update body) m)) := by
  have hMachines : (alignment first second).Machines (.whole m.heap.scopes.size) m m :=
    ⟨.whole hClosures, rfl, rfl, rfl, rfl⟩
  exact Loop.tracks_forLoop hLimit p start condition update span hBody hFirst hSecond
    (Alignment.aligns_whole hEnv) m m hMachines

/-- Without a limit, a `for` loop and its block with a `while` loop are executed alike. -/
theorem Loop.agree_forLoop :
    Stmt.Agree cfg depth env m (.forLoop start condition update body span)
      (.forAsWhile p start condition update body) := by
  have hEnds := ends_forLoop depth p start condition update span hLimit hEnv hClosures hBody
  refine ⟨⟨?forward, ?back⟩, ?alike⟩
  case forward =>
    rintro ⟨n, hEnd⟩
    -- the second statement has all the steps that it can need, so it does not tire
    have hRuns := hEnds True False n (n + 7) (fun _ => trivial) (Nat.lt_irrefl _)
    exact ⟨n + 7, finished_settle.mp (hRuns.finished_second (finished_settle.mpr hEnd) id)⟩
  case back =>
    rintro ⟨k, hEnd⟩
    have hRuns := hEnds False True k k (Nat.lt_irrefl _) fun _ => trivial
    exact ⟨k, finished_settle.mp (hRuns.finished_first (finished_settle.mpr hEnd) id)⟩
  case alike =>
    intro n k hEnd hEnd'
    have hRuns := hEnds True True n k (fun _ => trivial) fun _ => trivial
    exact Stmt.endAlike_of_ends (fun _ _ => final_of_execute) (fun _ _ => final_of_execute) hEnd
      hEnd' hRuns

end

/-- Two statements that have room are executed alike if they are without a limit. -/
theorem Stmt.Agree.of_unbounded {cfg : Settings} {depth : Nat} {env : Env} {m : Machine}
    {s s' : Stmt} (h : Stmt.Agree cfg.unbounded depth env m s s')
    (hRoom : s.HasRoom cfg depth env m) (hRoom' : s'.HasRoom cfg depth env m) :
    Stmt.Agree cfg depth env m s s' := by
  have hSame : ∀ fuel, execute cfg fuel depth env s m = execute cfg.unbounded fuel depth env s m :=
    hRoom
  have hSame' : ∀ fuel,
      execute cfg fuel depth env s' m = execute cfg.unbounded fuel depth env s' m := hRoom'
  unfold Stmt.Agree
  simp only [hSame, hSame']
  exact h

/-- What a `for` loop is. In a machine whose scopes were all made, and with a host whose stack does
not run out, a `for` loop and its block with a `while` loop are executed alike, provided that the
body does not continue the loop: one ends if the other one does, with the same output, in the same
completion but for places, and with the same contents of all that was there before. Where the body
does continue the loop, and also where it ends normally, the `for` loop evaluates its update once
and then starts over with its condition. -/
theorem forLoop_agrees_while (cfg : Settings) (depth : Nat) (env : Env) (m : Machine)
    (p : LoopSpans) (start : Option Simple) (condition update : Option Expr) (body : Block)
    (span : Option Span)
    (hEnv : m.heap.Spans env) (hClosures : ∀ i, m.heap.Spans (m.heap.closure i).env) :
    (¬body.Jumps .continueLoop →
      Stmt.HasRoom cfg depth env m (.forLoop start condition update body span) →
      Stmt.HasRoom cfg depth env m (.forAsWhile p start condition update body) →
      Stmt.Agree cfg depth env m (.forLoop start condition update body span)
        (.forAsWhile p start condition update body)) ∧
    ∀ fuel loopDepth loopEnv bodyEnv e c m₁ m₂ m₃ m₄, c = .normal ∨ c = .continueLoop →
      Step.holds (run cfg fuel) loopDepth loopEnv condition m₁ = .ok true m₂ →
      Eval.enter loopEnv [] m₂ = .ok bodyEnv m₃ →
      run cfg fuel (.executeAll loopDepth bodyEnv body.body) m₃ = .ok c m₄ →
      run cfg (fuel + 1) (.runFor loopDepth loopEnv condition (some e) body) m₁ =
        (do
          let _ ← run cfg fuel (.evaluate loopDepth loopEnv e)
          run cfg fuel (.runFor loopDepth loopEnv condition (some e) body)) m₄ := by
  refine ⟨fun hBody hRoom hRoom' => ?_, ?_⟩
  · refine Stmt.Agree.of_unbounded ?_ hRoom hRoom'
    exact Loop.agree_forLoop depth p start condition update span rfl hEnv hClosures hBody
  · intro fuel loopDepth loopEnv bodyEnv e c m₁ m₂ m₃ m₄ hAgain hHolds hEnter hRun
    rw [run_runFor, Eval.bind_of_ok hHolds, if_pos rfl, Eval.bind_of_ok hEnter,
      Eval.bind_of_ok hRun]
    rcases hAgain with rfl | rfl <;> rfl

namespace Loop

/-- The start, the condition and the update of `for (var i = null; !i; i = true)`. -/
def onceStart : Simple := .var ⟨"i", none⟩ none none

def onceCondition : Expr := .unary .not (.name ⟨"i", none⟩) none

def onceUpdate : Expr := .assign ⟨"i", none⟩ (.boolean true none) none

/-- The body `{ func f() { return i; } }`, which captures its scope. -/
def capturing : Block :=
  ⟨[.func ⟨⟨"f", none⟩, [], ⟨[.ret (some (.name ⟨"i", none⟩)) none], none⟩, none⟩], none⟩

/-- The body `{ continue; }`. -/
def continuing : Block := ⟨[.continueLoop none], none⟩

/-- A fresh session inside such a loop. -/
def entered : Machine :=
  Session.standard.machine.withHeap
    (Session.standard.machine.heap.newScope [("i", ⟨.null, false⟩)]).2

end Loop

/-- A loop that ends and whose body captures its scope, and one whose body continues it. -/
theorem forLoop_agrees_while_once :
    (∃ n, Eval.Finished (execute Session.standard.settings.unbounded n 0 ⟨0, []⟩
      (.forLoop (some Loop.onceStart) (some Loop.onceCondition) (some Loop.onceUpdate)
        Loop.capturing none) Session.standard.machine)) ∧
    Stmt.Agree Session.standard.settings.unbounded 0 ⟨0, []⟩ Session.standard.machine
      (.forLoop (some Loop.onceStart) (some Loop.onceCondition) (some Loop.onceUpdate)
        Loop.capturing none)
      (.forAsWhile ⟨none, none, none, none, none⟩ (some Loop.onceStart) (some Loop.onceCondition)
        (some Loop.onceUpdate) Loop.capturing) ∧
    run Session.standard.settings 4 (.runFor 1 ⟨1, [0]⟩ (some Loop.onceCondition)
        (some Loop.onceUpdate) Loop.continuing) Loop.entered =
      (do
        let _ ← run Session.standard.settings 3 (.evaluate 1 ⟨1, [0]⟩ Loop.onceUpdate)
        run Session.standard.settings 3 (.runFor 1 ⟨1, [0]⟩ (some Loop.onceCondition)
          (some Loop.onceUpdate) Loop.continuing))
        (Loop.entered.withHeap (Loop.entered.heap.newScope []).2) := by
  have hEnv : Session.standard.machine.heap.Spans ⟨0, []⟩ := by
    intro i hi
    obtain rfl := List.mem_singleton.mp hi
    exact Nat.one_pos
  have hBody : ¬Loop.capturing.Jumps .continueLoop := by
    rintro ⟨s, hMem, hJumps⟩
    obtain rfl := List.mem_singleton.mp hMem
    cases hJumps with
    | here own => cases own
    | inside block => cases block
  refine ⟨⟨9, ?ends⟩, ?agree, ?continued⟩
  case ends =>
    have hRun : ∃ m, execute Session.standard.settings.unbounded 9 0 ⟨0, []⟩
        (.forLoop (some Loop.onceStart) (some Loop.onceCondition) (some Loop.onceUpdate)
          Loop.capturing none) Session.standard.machine = .ok .normal m := ⟨_, rfl⟩
    obtain ⟨m, hRun⟩ := hRun
    rw [hRun]
    exact fun _ => nofun
  case agree =>
    exact (forLoop_agrees_while _ 0 ⟨0, []⟩ _ ⟨none, none, none, none, none⟩ _ _ _ Loop.capturing
      none hEnv fun _ => hEnv).1 hBody (fun _ => rfl) fun _ => rfl
  case continued =>
    exact (forLoop_agrees_while _ 0 ⟨0, []⟩ _ ⟨none, none, none, none, none⟩ none _ none
      Loop.continuing none hEnv fun _ => hEnv).2 3 1 _ _ _ .continueLoop _ _ _ _ (.inr rfl) rfl rfl
        rfl

end Tern
