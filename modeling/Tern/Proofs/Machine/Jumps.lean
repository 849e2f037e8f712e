import Tern.Proofs.Machine.Discipline

/-!
# Where a jump comes from

A `break` or a `continue` belongs to the innermost loop around it, and a `return` to the innermost
function. So a statement ends in a jump only if it holds that very jump, outside the functions and
classes in it, and if it is not a `return`, outside the loops in it.

* `Stmt.Jumps`, `Block.Jumps`: code that holds a jump out of it;
* `Task.jumps_run`: only such code ends in one.
-/

namespace Tern

/-! ## Results -/

/-- Whatever a computation returns satisfies `P`. -/
def Eval.Returns {α : Type} (x : Eval α) (P : α → Prop) : Prop :=
  ∀ m a m', x m = .ok a m' → P a

namespace Eval

variable {α β : Type}

theorem returns_pure {P : α → Prop} {a : α} (h : P a) : Returns (pure a : Eval α) P := by
  intro m b m' hRun
  cases hRun
  exact h

theorem returns_throw {P : α → Prop} (s : Signal) : Returns (throw s : Eval α) P := by
  intro m a m' hRun
  cases hRun

theorem returns_mono {x : Eval α} {P Q : α → Prop} (hx : Returns x P) (h : ∀ a, P a → Q a) :
    Returns x Q :=
  fun m a m' hRun => h a (hx m a m' hRun)

theorem returns_bind {x : Eval α} {f : α → Eval β} {P : α → Prop} {Q : β → Prop}
    (hx : Returns x P) (hf : ∀ a, P a → Returns (f a) Q) : Returns (x >>= f) Q := by
  intro m b m' hRun
  change EStateM.bind x f m = .ok b m' at hRun
  unfold EStateM.bind at hRun
  split at hRun
  · next hx' => exact hf _ (hx _ _ _ hx') _ _ _ hRun
  · cases hRun

/-- What comes first does not matter. -/
theorem returns_seq {x : Eval α} {f : α → Eval β} {Q : β → Prop}
    (hf : ∀ a, Returns (f a) Q) : Returns (x >>= f) Q :=
  returns_bind (P := fun _ => True) (fun _ _ _ _ => trivial) fun a _ => hf a

theorem returns_ite {c : Prop} [Decidable c] {x y : Eval α} {P : α → Prop} (hx : Returns x P)
    (hy : Returns y P) : Returns (if c then x else y) P := by
  split
  · exact hx
  · exact hy

theorem returns_guarded {x : Eval Completion} {P : Completion → Prop} (span : Option Span)
    (hx : Returns x P) (hThrow : ∀ t, P (.throw t)) : Returns (guarded span x) P := by
  intro m c m' hRun
  unfold guarded at hRun
  split at hRun
  · next hx' =>
    cases hRun
    exact hx _ _ _ hx'
  · split at hRun
    · cases hRun
      exact hThrow _
    · cases hRun

end Eval

/-! ## Jumps -/

/-- The ways to leave the statements around. -/
inductive Jump where
  | breakLoop | continueLoop | ret
deriving DecidableEq

/-- The jump that a completion is. -/
def Completion.jump? : Completion → Option Jump
  | .breakLoop => some .breakLoop
  | .continueLoop => some .continueLoop
  | .ret _ => some .ret
  | .normal | .throw _ => none

namespace Stmt

/-- The jump that a statement is. -/
def jump? : Stmt → Option Jump
  | .breakLoop _ => some .breakLoop
  | .continueLoop _ => some .continueLoop
  | .ret _ _ => some .ret
  | _ => none

/-- The blocks in a statement out of which a jump leaves the statement as well. -/
def exits (j : Jump) : Stmt → List Block
  | .block b => [b]
  | .ifElse _ body elifs otherwise _ => body :: (elifs.map (·.body) ++ otherwise.toList)
  | .whileLoop _ body _ | .forLoop _ _ _ body _ => if j = .ret then [body] else []
  | .tryCatch body _ handler _ => [body, handler]
  | _ => []

/-- The statement holds a jump out of it. -/
inductive Jumps (j : Jump) : Stmt → Prop
  | here {s : Stmt} (own : s.jump? = some j) : Jumps j s
  | inside {s s' : Stmt} {b : Block} (block : b ∈ s.exits j) (mem : s' ∈ b.body)
      (within : Jumps j s') : Jumps j s

end Stmt

/-- The block holds a jump out of it. -/
def Block.Jumps (j : Jump) (b : Block) : Prop := ∃ s ∈ b.body, s.Jumps j

theorem Block.Jumps.stmt {j : Jump} {b : Block} {s : Stmt} (h : b.Jumps j)
    (hBlock : b ∈ s.exits j) : s.Jumps j := by
  obtain ⟨s', hMem, hJumps⟩ := h
  exact .inside hBlock hMem hJumps

/-- The computation ends only in jumps that satisfy `P`. -/
def Eval.JumpsIf (x : Eval Completion) (P : Jump → Prop) : Prop :=
  x.Returns fun c => ∀ j, c.jump? = some j → P j

namespace Eval

variable {x : Eval Completion} {P Q : Jump → Prop}

theorem jumpsIf_pure {c : Completion} (h : ∀ j, c.jump? = some j → P j) :
    JumpsIf (pure c) P :=
  returns_pure h

theorem jumpsIf_normal : JumpsIf (pure .normal) P := jumpsIf_pure nofun

theorem jumpsIf_mono (hx : JumpsIf x P) (h : ∀ j, P j → Q j) : JumpsIf x Q :=
  returns_mono hx fun _ hc j hj => h j (hc j hj)

end Eval

/-! ## Tasks -/

namespace Task

/-- The statements of a task hold a jump out of them. -/
def Jumps (j : Jump) : Task → Prop
  | .execute _ _ s => s.Jumps j
  | .executeAll _ _ body => ∃ s ∈ body, s.Jumps j
  | .executeElifs _ _ clauses otherwise =>
    ∃ b ∈ clauses.map (·.body) ++ otherwise.toList, b.Jumps j
  | .runWhile _ _ _ body | .runFor _ _ _ _ body => j = .ret ∧ body.Jumps j
  | _ => False

/-- What a task ends in is a jump only if its statements hold one. -/
def EndsByOwn (t : Task) : t.Result → Prop :=
  match t with
  | .execute .. | .executeSimple .. | .executeAll .. | .executeElifs .. | .runWhile ..
  | .runFor .. => fun c => ∀ j, c.jump? = some j → t.Jumps j
  | .evaluate .. | .evaluateAll .. | .apply .. | .applyFunc .. => fun _ => True

/-- A worker whose tasks end in jumps of their own only. -/
def JumpsByOwn (inner : Worker) : Prop := ∀ t, (inner t).Returns t.EndsByOwn

open Eval

section

variable {cfg : Settings} {inner : Worker} (hInner : JumpsByOwn inner)
include hInner

theorem jumps_block (depth : Nat) (env : Env) (names : Scope) (b : Block) :
    JumpsIf (do let env ← enter env names; inner (.executeAll depth env b.body))
      (b.Jumps ·) :=
  returns_seq fun env => hInner (.executeAll depth env b.body)

theorem jumps_stepExecuteAll (depth : Nat) (env : Env) (body : List Stmt) :
    JumpsIf (Step.executeAll inner depth env body) fun j => ∃ s ∈ body, s.Jumps j := by
  cases body with
  | nil => exact jumpsIf_normal
  | cons s rest =>
    refine returns_bind (hInner (.execute depth env s)) fun c hc => ?_
    split
    · refine jumpsIf_mono (hInner (.executeAll depth env rest)) fun j hRest => ?_
      obtain ⟨s', hMem, hJumps⟩ := hRest
      exact ⟨s', List.mem_cons_of_mem _ hMem, hJumps⟩
    · exact jumpsIf_pure fun j hj => ⟨s, List.mem_cons_self, hc j hj⟩

theorem jumps_stepExecuteElifs (depth : Nat) (env : Env) (clauses : List ElifClause)
    (otherwise : Option Block) :
    JumpsIf (Step.executeElifs inner depth env clauses otherwise) fun j =>
      ∃ b ∈ clauses.map (·.body) ++ otherwise.toList, b.Jumps j := by
  cases clauses with
  | nil =>
    cases otherwise with
    | none => exact jumpsIf_normal
    | some b =>
      exact jumpsIf_mono (jumps_block hInner depth env [] b) fun j hj =>
        ⟨b, List.mem_singleton_self b, hj⟩
  | cons clause rest =>
    refine returns_seq fun v => returns_ite ?_ ?_
    · exact jumpsIf_mono (jumps_block hInner depth env [] clause.body) fun j hj =>
        ⟨clause.body, List.mem_cons_self, hj⟩
    · refine jumpsIf_mono (hInner (.executeElifs depth env rest otherwise)) fun j hRest => ?_
      obtain ⟨b, hMem, hJumps⟩ := hRest
      exact ⟨b, List.mem_cons_of_mem _ hMem, hJumps⟩

/-- A loop takes every jump out of its body but a `return`. -/
theorem jumps_afterRound (depth : Nat) (env : Env) (body : Block) {f : Completion → Eval Completion}
    (hReturn : ∀ v, f (.ret v) = pure (.ret v))
    (hOther : ∀ c, (∀ v, c ≠ .ret v) → JumpsIf (f c) fun j => j = .ret ∧ body.Jumps j) :
    JumpsIf (inner (.executeAll depth env body.body) >>= f) fun j => j = .ret ∧ body.Jumps j := by
  refine returns_bind (hInner (.executeAll depth env body.body)) fun c hc => ?_
  by_cases hRet : ∃ v, c = .ret v
  · obtain ⟨v, rfl⟩ := hRet
    rw [hReturn]
    refine jumpsIf_pure fun j hj => ?_
    obtain rfl := Option.some.inj hj
    exact ⟨rfl, hc _ rfl⟩
  · exact hOther c fun v h => hRet ⟨v, h⟩

theorem jumps_stepRunWhile (depth : Nat) (env : Env) (condition : Expr) (body : Block) :
    JumpsIf (Step.runWhile inner depth env condition body) fun j => j = .ret ∧ body.Jumps j := by
  refine returns_seq fun v => returns_ite ?_ jumpsIf_normal
  refine returns_seq fun bodyEnv => jumps_afterRound hInner depth bodyEnv body (fun _ => rfl) ?_
  intro c hc
  cases c with
  | ret v => exact absurd rfl (hc v)
  | breakLoop => exact jumpsIf_normal
  | throw => exact jumpsIf_pure nofun
  | normal | continueLoop => exact hInner (.runWhile depth env condition body)

theorem jumps_stepRunFor (depth : Nat) (env : Env) (condition update : Option Expr)
    (body : Block) : JumpsIf (Step.runFor inner depth env condition update body) fun j =>
      j = .ret ∧ body.Jumps j := by
  refine returns_seq fun more => returns_ite ?_ jumpsIf_normal
  refine returns_seq fun bodyEnv => jumps_afterRound hInner depth bodyEnv body (fun _ => rfl) ?_
  intro c hc
  cases c with
  | ret v => exact absurd rfl (hc v)
  | breakLoop => exact jumpsIf_normal
  | throw => exact jumpsIf_pure nofun
  | normal | continueLoop =>
    cases update with
    | none => exact hInner (.runFor depth env condition none body)
    | some e => exact returns_seq fun _ => hInner (.runFor depth env condition (some e) body)

theorem jumps_stmt (depth : Nat) (env : Env) (s : Stmt) :
    JumpsIf (Step.stmt cfg inner depth env s) fun j => s.Jumps j := by
  cases s with
  | simple s =>
    exact jumpsIf_mono (hInner (.executeSimple (depth + 1) env s)) fun _ hj => hj.elim
  | func f => exact returns_seq fun _ => jumpsIf_normal
  | cls c => exact returns_seq fun _ => jumpsIf_normal
  | block b =>
    exact jumpsIf_mono (jumps_block hInner (depth + 1) env [] b) fun j hj =>
      hj.stmt List.mem_cons_self
  | ifElse condition body elifs otherwise span =>
    refine returns_seq fun v => returns_ite ?_ ?_
    · exact jumpsIf_mono (jumps_block hInner (depth + 1) env [] body) fun j hj =>
        hj.stmt List.mem_cons_self
    · refine jumpsIf_mono (hInner (.executeElifs (depth + 1) env elifs otherwise)) fun j hj => ?_
      obtain ⟨b, hMem, hJumps⟩ := hj
      exact hJumps.stmt (List.mem_cons_of_mem _ hMem)
  | whileLoop condition body span =>
    refine jumpsIf_mono (hInner (.runWhile (depth + 1) env condition body)) fun j hj => ?_
    refine hj.2.stmt ?_
    rw [Stmt.exits, if_pos hj.1]
    exact List.mem_singleton_self body
  | forLoop start condition update body span =>
    have hLoop : ∀ loopEnv, JumpsIf (inner (.runFor (depth + 1) loopEnv condition update body))
        fun j => (Stmt.forLoop start condition update body span).Jumps j := by
      intro loopEnv
      refine jumpsIf_mono (hInner (.runFor (depth + 1) loopEnv condition update body)) ?_
      intro j hj
      refine hj.2.stmt ?_
      rw [Stmt.exits, if_pos hj.1]
      exact List.mem_singleton_self body
    refine returns_seq fun loopEnv => ?_
    cases start with
    | none => exact hLoop loopEnv
    | some start =>
      refine returns_bind (hInner (.execute (depth + 1) loopEnv (.simple start))) fun c hc => ?_
      split
      · exact hLoop loopEnv
      · refine jumpsIf_pure fun j hj => ?_
        -- what starts a loop holds no jump
        cases hc j hj with
        | here own => cases own
        | inside block => cases block
  | breakLoop span => exact jumpsIf_pure fun j hj => .here hj
  | continueLoop span => exact jumpsIf_pure fun j hj => .here hj
  | ret e span =>
    cases e with
    | none => exact jumpsIf_pure fun j hj => .here hj
    | some e => exact returns_seq fun v => jumpsIf_pure fun j hj => .here hj
  | tryCatch body param handler span =>
    refine returns_seq fun tryEnv => ?_
    refine returns_bind (hInner (.executeAll (depth + 1) tryEnv body.body)) fun c hc => ?_
    split
    · refine returns_seq fun text => returns_seq fun _ => ?_
      exact jumpsIf_mono (jumps_block hInner (depth + 1) env _ handler) fun j hj =>
        hj.stmt (List.mem_cons_of_mem _ List.mem_cons_self)
    · exact jumpsIf_pure fun j hj => Block.Jumps.stmt (hc j hj) List.mem_cons_self
  | throw e span => exact returns_seq fun v => jumpsIf_pure nofun

omit hInner in
theorem jumps_stepExecuteSimple (depth : Nat) (env : Env) (s : Simple) :
    JumpsIf (Step.executeSimple inner depth env s) fun _ => False := by
  unfold Step.executeSimple
  split
  · exact returns_seq fun _ => jumpsIf_normal
  · exact returns_seq fun _ => returns_seq fun _ => jumpsIf_normal
  · exact returns_seq fun _ => returns_seq fun _ => jumpsIf_normal
  · exact returns_seq fun _ => jumpsIf_normal

theorem jumps_step : JumpsByOwn (step cfg inner) := by
  intro t
  cases t with
  | execute depth env s =>
    exact returns_guarded _ (returns_ite (returns_throw _) (jumps_stmt hInner depth env s))
      fun _ => nofun
  | executeSimple depth env s => exact jumps_stepExecuteSimple depth env s
  | executeAll depth env body => exact jumps_stepExecuteAll hInner depth env body
  | executeElifs depth env clauses otherwise =>
    exact jumps_stepExecuteElifs hInner depth env clauses otherwise
  | runWhile depth env condition body => exact jumps_stepRunWhile hInner depth env condition body
  | runFor depth env condition update body =>
    exact jumps_stepRunFor hInner depth env condition update body
  | evaluate | evaluateAll | apply | applyFunc => exact fun _ _ _ _ => trivial

end

/-- Tasks end in jumps of their own only. -/
theorem jumps_run (cfg : Settings) (fuel : Nat) : JumpsByOwn (run cfg fuel) := by
  induction fuel with
  | zero => exact fun _ => returns_throw _
  | succ fuel ih => exact jumps_step ih

end Task

end Tern
