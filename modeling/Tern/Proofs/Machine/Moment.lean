import Tern.Proofs.Machine.Run

/-!
# The moments of a run

What holds when a run is over says nothing about the machines that it came by. A step hands its
parts to a worker, and it `Needs` a part when it would do something else if the worker did
something else with that very part from that very machine. The moments of a run are the task it
starts with and whatever the steps at its moments need. The moments of a program are those of
the statements that its run gets to.

* `Moment`: the tasks that a run comes by, with their machines and the fuel left;
* `Passes`: the same for the statements of a program;
* `Discipline.Lawful.fits_of_moment`, `Discipline.Lawful.fits_of_passes`: a discipline that
  admits the start admits every moment.
-/

namespace Tern

variable {cfg : Settings} {halt : Nat → Bool} {env : Env}

/-! ## Runs of a task -/

/-- The step that does `t` from `m` asks its worker for `t'` from `m'`: with a worker that does
otherwise there and the same everywhere else it would do otherwise itself. -/
def Needs (cfg : Settings) (inner : Worker) (t : Task) (m : Machine) (t' : Task) (m' : Machine) :
    Prop :=
  ∃ other : Worker, (∀ u k, ¬(u = t' ∧ k = m') → other u k = inner u k) ∧
    step cfg other t m ≠ step cfg inner t m

/-- `Moment cfg fuel t m k t' m'`: the run of `t` from `m` comes to do `t'` from `m'`, with the
fuel `k` left. -/
inductive Moment (cfg : Settings) (fuel : Nat) (t : Task) (m : Machine) :
    Nat → Task → Machine → Prop where
  | start : Moment cfg fuel t m fuel t m
  | part {k : Nat} {t' t'' : Task} {m' m'' : Machine} (before : Moment cfg fuel t m (k + 1) t' m')
      (need : Needs cfg (run cfg k) t' m' t'' m'') : Moment cfg fuel t m k t'' m''

/-- The worker that breaks off at one task from one machine. -/
noncomputable def Worker.interrupt (inner : Worker) (t : Task) (m : Machine) (message : String) :
    Worker := fun u k =>
  open Classical in if u = t ∧ k = m then .error (.failure message) k else inner u k

theorem Worker.interrupt_self (inner : Worker) (t : Task) (m : Machine) (message : String) :
    inner.interrupt t m message t m = .error (.failure message) m := by
  simp [Worker.interrupt]

theorem Worker.interrupt_other {inner : Worker} {t u : Task} {m k : Machine} {message : String}
    (h : ¬(u = t ∧ k = m)) : inner.interrupt t m message u k = inner u k := by
  simp [Worker.interrupt, h]

/-- A step needs a part if it breaks off wherever the part does. -/
theorem needs_of_interrupt {inner : Worker} {t t' : Task} {m m' : Machine} (m'' : Machine)
    (h : ∀ message,
      step cfg (inner.interrupt t' m' message) t m = .error (.failure message) m'') :
    Needs cfg inner t m t' m' := by
  have hOther : ∃ message, step cfg (inner.interrupt t' m' message) t m ≠ step cfg inner t m := by
    by_cases hSame : step cfg inner t m = .error (.failure "") m''
    · refine ⟨"?", ?_⟩
      rw [h, hSame]
      simp
    · exact ⟨"", by rw [h]; exact Ne.symm hSame⟩
  obtain ⟨message, hOther⟩ := hOther
  exact ⟨_, fun u k hne => Worker.interrupt_other hne, hOther⟩

/-! ### What steps need

The way from a call at the top level to the first expression in the body. -/

section

variable {inner : Worker} {depth : Nat} {m m₁ m₂ : Machine}

theorem needs_apply {id : Ident} {args : List Expr} {span : Option Span} {callee : Value}
    {vs : List Value} (hRoom : cfg.isFull depth = false)
    (hCallee : inner (.evaluate (depth + 1) env (.name id)) m = .ok callee m₁)
    (hArgs : inner (.evaluateAll (depth + 1) env args) m₁ = .ok vs m₂) :
    Needs cfg inner (.evaluate depth env (.call (.name id) args span)) m
      (.apply (depth + 1) callee vs) m₂ := by
  refine needs_of_interrupt m₂ fun message => ?_
  change (if cfg.isFull depth = true then Eval.overflow else Eval.located span
    (EStateM.bind (inner.interrupt _ _ message (.evaluate (depth + 1) env (.name id))) fun callee =>
      EStateM.bind (inner.interrupt _ _ message (.evaluateAll (depth + 1) env args)) fun vs =>
        inner.interrupt _ _ message (.apply (depth + 1) callee vs))) m = _
  rw [hRoom, if_neg Bool.false_ne_true]
  unfold Eval.located EStateM.bind
  rw [Worker.interrupt_other (by simp), hCallee]
  dsimp only
  rw [Worker.interrupt_other (by simp), hArgs]
  dsimp only
  rw [Worker.interrupt_self]
  rfl

theorem needs_initializer {c : Class} {f : FuncId} {args : List Value}
    (hFind : c.findMethod? Eval.initializerName = some f) :
    Needs cfg inner (.apply depth (.cls c) args) m
      (.applyFunc depth f (some m.heap.objects.size) args)
      (m.withHeap (m.heap.newObject ⟨c, []⟩).2) := by
  refine needs_of_interrupt (m.withHeap (m.heap.newObject ⟨c, []⟩).2) fun message => ?_
  change Step.apply cfg _ depth (.cls c) args m = _
  simp only [Step.apply, hFind]
  change EStateM.bind (inner.interrupt _ _ message
    (.applyFunc depth f (some m.heap.objects.size) args)) _
    (m.withHeap (m.heap.newObject ⟨c, []⟩).2) = _
  unfold EStateM.bind
  rw [Worker.interrupt_self]

theorem needs_body {id : FuncId} {self : Option ObjectId} {args : List Value}
    (hCheck : Eval.checkCall cfg (m.heap.closure id).definition args.length m = .ok () m)
    (hEnter : Eval.enterCall (m.heap.closure id) self args m = .ok env m₁) :
    Needs cfg inner (.applyFunc depth id self args) m
      (.executeAll depth env (m.heap.closure id).definition.body.body)
      (m₁.atDepth (m₁.callDepth + 1)) := by
  refine needs_of_interrupt ((m₁.atDepth (m₁.callDepth + 1)).atDepth (m₁.callDepth + 1 - 1))
    fun message => ?_
  change EStateM.bind (Eval.checkCall cfg (m.heap.closure id).definition args.length) (fun _ =>
    EStateM.bind (Eval.enterCall (m.heap.closure id) self args) fun env =>
      EStateM.bind (Eval.withCallDepth (inner.interrupt _ _ message
        (.executeAll depth env (m.heap.closure id).definition.body.body))) _) m = _
  unfold EStateM.bind
  rw [hCheck]
  dsimp only
  rw [hEnter]
  dsimp only
  unfold Eval.withCallDepth
  have hDeeper : { m₁ with callDepth := m₁.callDepth + 1 } = m₁.atDepth (m₁.callDepth + 1) := rfl
  rw [hDeeper, Worker.interrupt_self]
  rfl

theorem needs_first {s : Stmt} {rest : List Stmt} :
    Needs cfg inner (.executeAll depth env (s :: rest)) m (.execute depth env s) m := by
  refine needs_of_interrupt m fun message => ?_
  change EStateM.bind (inner.interrupt _ _ message (.execute depth env s)) _ m = _
  unfold EStateM.bind
  rw [Worker.interrupt_self]

theorem needs_simple {s : Simple} (hRoom : cfg.isFull depth = false) :
    Needs cfg inner (.execute depth env (.simple s)) m (.executeSimple (depth + 1) env s) m := by
  refine needs_of_interrupt m fun message => ?_
  change Eval.guarded _ (if cfg.isFull depth = true then Eval.overflow else
    inner.interrupt _ _ message (.executeSimple (depth + 1) env s)) m = _
  rw [hRoom, if_neg Bool.false_ne_true]
  unfold Eval.guarded
  rw [Worker.interrupt_self]
  rfl

theorem needs_expression {e : Expr} {span : Option Span} :
    Needs cfg inner (.executeSimple depth env (.expr e span)) m (.evaluate depth env e) m := by
  refine needs_of_interrupt m fun message => ?_
  change EStateM.bind (inner.interrupt _ _ message (.evaluate depth env e)) _ m = _
  unfold EStateM.bind
  rw [Worker.interrupt_self]

end

namespace Discipline

variable {D : Discipline} {m : Machine}

/-- A step from an admitted task only needs admitted tasks: a worker that does otherwise with
anything else agrees with the given one as far as the discipline can tell. -/
theorem Lawful.fits_of_needs (L : D.Lawful cfg) {fuel : Nat} {t t' : Task} {m' : Machine}
    (hInv : D.Inv m) (hFits : D.Fits m.heap t) (hNeeds : Needs cfg (run cfg fuel) t m t' m') :
    D.Inv m' ∧ D.Fits m'.heap t' := by
  obtain ⟨other, hSame, hDiffers⟩ := hNeeds
  refine Classical.byContradiction fun hOutside => ?_
  have hAgree : D.Agree (run cfg fuel) other := by
    intro u k hk hu
    have hHere := L.agree_run fuel u k hk hu
    have hEqual : other u k = run cfg fuel u k := by
      apply hSame
      rintro ⟨rfl, rfl⟩
      exact hOutside ⟨hk, hu⟩
    exact ⟨hEqual, hHere.2⟩
  exact hDiffers (L.agree_step hAgree t m hInv hFits).1

theorem Lawful.fits_of_moment (L : D.Lawful cfg) {fuel k : Nat} {t t' : Task} {m' : Machine}
    (hInv : D.Inv m) (hFits : D.Fits m.heap t) (hMoment : Moment cfg fuel t m k t' m') :
    D.Inv m' ∧ D.Fits m'.heap t' := by
  induction hMoment with
  | start => exact ⟨hInv, hFits⟩
  | part _ need ih => exact L.fits_of_needs ih.1 ih.2 need

end Discipline

/-! ## Runs of a program -/

/-- The task that a statement at the top level is. -/
def Stmt.topTask (env : Env) : Stmt → Task
  | .simple (.expr e _) => .evaluate 0 env e
  | s => .execute 0 env s

/-- `Starts cfg halt env body m s m'`: when `body` runs at the top level from `m`, its statement
`s` gets to run, from `m'`. -/
inductive Starts (cfg : Settings) (halt : Nat → Bool) (env : Env) :
    List Stmt → Machine → Stmt → Machine → Prop where
  | first {s : Stmt} {rest : List Stmt} {m : Machine} (goesOn : halt m.executed = false) :
      Starts cfg halt env (s :: rest) m s m
  | later {s s' : Stmt} {rest : List Stmt} {m m₁ m' : Machine} {v : Value}
      (goesOn : halt m.executed = false) (ends : executeTop cfg env s m = .ok (.normal, v) m₁)
      (after : Starts cfg halt env rest { m₁ with executed := m₁.executed + 1 } s' m') :
      Starts cfg halt env (s :: rest) m s' m'

/-- The moments of the run of a program. -/
def Passes (cfg : Settings) (halt : Nat → Bool) (env : Env) (p : Program) (m : Machine)
    (t : Task) (m' : Machine) : Prop :=
  ∃ s m₁ k, Starts cfg halt env p.body m s m₁ ∧ Moment cfg cfg.fuel (s.topTask env) m₁ k t m'

/-- A statement at the top level that is not an expression. -/
theorem executeTop_eq {s : Stmt} (h : ∀ e span, s ≠ .simple (.expr e span)) :
    executeTop cfg env s = (do let c ← execute cfg cfg.fuel 0 env s; pure (c, .null)) := by
  cases s with
  | simple s =>
    cases s with
    | expr e span => exact absurd rfl (h e span)
    | var | const => rfl
  | _ => rfl

theorem Stmt.topTask_eq {s : Stmt} (h : ∀ e span, s ≠ .simple (.expr e span)) :
    s.topTask env = .execute 0 env s := by
  unfold Stmt.topTask
  split
  · exact absurd rfl (h _ _)
  · rfl

section

variable {s : Stmt} {rest : List Stmt} {m m₁ : Machine} {c : Completion} {v : Value}

/-! ### One statement after another -/

theorem interpretFrom_halted (hHalt : halt m.executed = true) (value : Value) :
    interpretFrom cfg halt env value (s :: rest) m = .ok (.halted m.executed) m := by
  change (if halt m.executed = true then pure (.halted m.executed) else _ : Eval Outcome) m = _
  rw [if_pos hHalt]
  rfl

theorem interpretFrom_error {signal : Signal} (hGoes : halt m.executed = false)
    (hRun : executeTop cfg env s m = .error signal m₁) (value : Value) :
    interpretFrom cfg halt env value (s :: rest) m = .error signal m₁ := by
  change (if halt m.executed = true then _ else
    EStateM.bind (executeTop cfg env s) fun r => _ : Eval Outcome) m = _
  rw [if_neg (by simp [hGoes])]
  unfold EStateM.bind
  rw [hRun]

/-- What comes after a statement at the top level. -/
def afterTop (cfg : Settings) (halt : Nat → Bool) (env : Env) (rest : List Stmt) (value : Value) :
    Completion → Eval Outcome
  | .normal => interpretFrom cfg halt env value rest
  | .throw t => do
    let text ← Eval.display cfg 0 t.value
    Eval.debug cfg ("uncaught throw at top level: " ++ text)
    pure (.uncaught t)
  | .ret v => pure (.completed v)
  | _ => pure (.completed value)

theorem interpretFrom_ok (hGoes : halt m.executed = false)
    (hRun : executeTop cfg env s m = .ok (c, v) m₁) (value : Value) :
    interpretFrom cfg halt env value (s :: rest) m =
      afterTop cfg halt env rest v c { m₁ with executed := m₁.executed + 1 } := by
  change (if halt m.executed = true then _ else
    EStateM.bind (executeTop cfg env s) fun r => _ : Eval Outcome) m = _
  rw [if_neg (by simp [hGoes])]
  unfold EStateM.bind
  rw [hRun]
  rfl

end

namespace Discipline

variable {D : Discipline} {m : Machine} {σ : D.Site} {ctx : Context}

theorem Steady.fits_topTask (L : D.Steady cfg) {s : Stmt} (hAt : D.At m.heap σ env)
    (hCode : D.Code σ ctx (.stmt s)) : D.Fits m.heap (s.topTask env) := by
  unfold Stmt.topTask
  split
  · exact ⟨σ, ctx, hAt, L.code_simple hCode (by simp [Node.ofSimple])⟩
  · exact ⟨σ, ctx, hAt, hCode⟩

section

variable (L : D.Lawful cfg) (hInv : D.Inv m)
include L hInv

theorem Lawful.holds_executeTop {s : Stmt} (hAt : D.At m.heap σ env)
    (hCode : D.Code σ ctx (.stmt s)) :
    D.Holds m m (executeTop cfg env s) fun m' r => D.Ends m'.heap r.1 := by
  by_cases hExpr : ∃ e span, s = .simple (.expr e span)
  · obtain ⟨e, span, rfl⟩ := hExpr
    have hRun := L.agree_run cfg.fuel (.evaluate 0 env e) m hInv
      ⟨σ, ctx, hAt, L.code_simple hCode (by simp [Node.ofSimple])⟩
    refine ⟨rfl, ?_⟩
    have hEnd := hRun.2
    unfold executeTop evaluate
    dsimp only
    cases hx : run cfg cfg.fuel (.evaluate 0 env e) m with
    | ok v m' =>
      rw [hx] at hEnd
      exact ⟨hEnd.1, trivial⟩
    | error signal m' =>
      rw [hx] at hEnd
      cases signal with
      | thrown t => exact hEnd
      | fault | overflow => exact ⟨hEnd.1, L.plain trivial⟩
      | failure | exhausted => exact hEnd
  · rw [executeTop_eq fun e span h => hExpr ⟨e, span, h⟩]
    refine twin_bind (L.agree_run cfg.fuel (.execute 0 env s) m hInv ⟨σ, ctx, hAt, hCode⟩) ?_
    exact fun c m₁ hm₁ hc => twin_pure hm₁ hc

end

/-- Counting a statement is nothing that a discipline sees. -/
theorem Steady.next_count (L : D.Steady cfg) (hInv : D.Inv m) :
    D.Next m { m with executed := m.executed + 1 } :=
  L.quiet hInv rfl rfl (.refl m.console)

theorem Steady.holds_debug (L : D.Steady cfg) (hInv : D.Inv m) (message : String) :
    D.Holds m m (Eval.debug cfg message) fun m' _ => m'.heap = m.heap :=
  L.holds_modify (L.here hInv) rfl rfl rfl

section

variable (L : D.Lawful cfg)
include L

theorem Lawful.holds_interpretFrom (hAt : ∀ h, D.At h σ env) {body : List Stmt} {value : Value}
    (hInv : D.Inv m) (hCode : ∀ s ∈ body, D.Code σ ctx (.stmt s)) :
    D.Holds m m (interpretFrom cfg halt env value body) fun _ _ => True := by
  induction body generalizing m value with
  | nil => exact twin_pure (L.here hInv) trivial
  | cons s rest ih =>
    obtain ⟨hFirst, hRest⟩ := List.forall_mem_cons.mp hCode
    refine twin_bind (holds_get (L.here hInv)) ?_
    rintro _ m' - ⟨rfl, rfl⟩
    refine twin_ite (fun _ => twin_pure (L.here hInv) trivial) fun _ => ?_
    refine L.twin_seq (L.holds_executeTop hInv (hAt _) hFirst) ?_
    rintro ⟨c, v⟩ m₁ hm₁ hc
    refine L.twin_seq (L.holds_modify (L.here hm₁.1) rfl rfl rfl) fun _ m₂ hm₂ hHeap => ?_
    cases c with
    | normal => exact ih hm₂.1 hRest
    | throw t =>
      refine twin_bind (holds_display (L.here hm₂.1) _ _) ?_
      rintro text m' - rfl
      refine L.twin_seq (L.holds_debug hm₂.1 _) fun _ m₃ hm₃ _ => ?_
      exact twin_pure (L.here hm₃.1) trivial
    | ret | breakLoop | continueLoop => exact twin_pure (L.here hm₂.1) trivial

theorem Lawful.inv_of_starts (hAt : ∀ h, D.At h σ env) {body : List Stmt} {s : Stmt}
    {m' : Machine} (hInv : D.Inv m) (hCode : ∀ s ∈ body, D.Code σ ctx (.stmt s))
    (hStarts : Starts cfg halt env body m s m') : D.Inv m' ∧ D.Code σ ctx (.stmt s) := by
  induction hStarts with
  | first => exact ⟨hInv, hCode _ List.mem_cons_self⟩
  | later _ ends _ ih =>
    obtain ⟨hFirst, hRest⟩ := List.forall_mem_cons.mp hCode
    have hNext := ((L.holds_executeTop hInv (hAt _) hFirst).ok ends).1
    exact ih (L.next_count hNext.1).1 hRest

/-- A discipline that admits a program admits every moment of its run. -/
theorem Lawful.fits_of_passes (hAt : ∀ h, D.At h σ env) {p : Program} {t : Task} {m' : Machine}
    (hInv : D.Inv m) (hCode : ∀ s ∈ p.body, D.Code σ ctx (.stmt s))
    (hPasses : Passes cfg halt env p m t m') : D.Inv m' ∧ D.Fits m'.heap t := by
  obtain ⟨s, m₁, k, hStarts, hMoment⟩ := hPasses
  obtain ⟨hInv₁, hStmt⟩ := L.inv_of_starts hAt hInv hCode hStarts
  exact L.fits_of_moment hInv₁ (L.fits_topTask (hAt _) hStmt) hMoment

end

end Discipline

end Tern
