import Tern.Proofs.Machine.Lockstep
import Tern.Proofs.Machine.Moment

/-!
# What a run does not look at

The evaluator goes through the code without a look at the spans, the log or the count of
statements. So a run in disguise is mirrored by the run, which is to say that a disguise is a
simulation.

* `Disguise.simulation`, `Disguise.simulation_lawful`: a disguise as a simulation;
* `Disguise.mirrors_evaluate`, `Disguise.mirrors_execute`: what a run does in disguise;
* `Disguise.mirrors_interpret`: so do whole programs, if the count is the same;
* `executed_executeTop`: statements do not count themselves.
-/

namespace Tern

namespace Disguise

variable {V : Disguise} {cfg : Settings} {l : Logger}

/-! ## A disguise as a simulation -/

/-- Machines correspond if the second is the first one in disguise. There are no worlds to tell
apart, and neither run may tire. -/
def simulation (V : Disguise) : Simulation where
  World := Unit
  Later _ _ := True
  Heaps _ h h' := h' = V.heap h
  Sees _ env env' := env' = env
  Stands _ env env' := env' = env
  Deep depth depth' := depth' = depth
  veil := V
  firstMayTire := False
  secondMayTire := False

theorem simulation_lawful (hSuits : V.Suits cfg l) :
    V.simulation.Lawful cfg (cfg.withLogger l) where
  refl _ := trivial
  trans _ _ := trivial
  sees_later _ h := h
  stands_later _ h := h
  sees h := h
  deeper := congrArg (· + 1)
  room := by
    rintro d _ rfl
    rfl
  host := rfl
  limit := rfl
  debug := hSuits
  alike := by
    rintro _ h _ rfl
    rfl
  cells := by
    rintro _ h _ rfl k
    rfl
  closure := by
    rintro _ h _ rfl i
    rw [closure_heap]
    exact ⟨rfl, rfl, rfl⟩
  newClosure := by
    rintro _ h _ _ env rfl rfl f initializer
    refine ⟨Array.size_map .., ?_⟩
    exact congrArg (·.2) (newClosure_heap h ⟨f, env, initializer⟩)
  get := by
    rintro _ h _ _ env rfl rfl name
    exact get_heap h env name
  assign := by
    rintro _ h _ _ env rfl rfl name
    rw [assignTarget_heap]
    cases h.assignTarget env name with
    | error e => exact .inl ⟨e, rfl, rfl⟩
    | ok s => exact .inr ⟨s, s, rfl, rfl, fun _ => rfl⟩
  declare := by
    rintro _ h _ _ env rfl rfl name
    exact ⟨rfl, fun _ => rfl⟩
  enter := by
    rintro _ h _ _ env rfl rfl names
    exact ⟨(), trivial, rfl, rfl⟩

/-- What follows a computation in disguise mirrors it. -/
theorem mirrors_of_tracks {α β : Type} {Q : Unit → α → β → Prop} {x : Eval α} {y : Eval β}
    {r : α → β} (hTracks : V.simulation.Tracks () Q x y) (hResult : ∀ a b, Q () a b → b = r a) :
    V.Mirrors x y r := by
  intro m
  have hSame : ∀ {k k' : Machine}, V.simulation.Machines () k k' → k' = V.machine k := by
    rintro k ⟨heap', console', log', callDepth', executed'⟩ ⟨hHeap, hConsole, hLog, hDepth, hCount⟩
    obtain rfl : heap' = V.heap k.heap := hHeap
    obtain rfl : console' = k.console := hConsole
    obtain rfl : log' = V.log k.log := hLog
    obtain rfl : callDepth' = k.callDepth := hDepth
    obtain rfl : executed' = V.count k.executed := hCount
    rfl
  have hEnds := hTracks m (V.machine m) ⟨rfl, rfl, rfl, rfl, rfl⟩
  generalize x m = r₁ at hEnds ⊢
  generalize y (V.machine m) = r₂ at hEnds ⊢
  cases hEnds with
  | ok _ same machines =>
    rw [hResult _ _ same, hSame machines]
    rfl
  | error _ machines =>
    rw [hSame machines]
    rfl
  | first tires => exact tires.elim
  | second tires => exact tires.elim

theorem mirrors_display (hSuits : V.Suits cfg l) (depth : Nat) (v : Value) :
    V.Mirrors (Eval.display cfg depth v) (Eval.display (cfg.withLogger l) depth v) id :=
  mirrors_of_tracks (Simulation.tracks_display (simulation_lawful hSuits) rfl v) fun _ _ h => h

theorem mirrors_debug (hSuits : V.Suits cfg l) (message : String) :
    V.Mirrors (Eval.debug cfg message) (Eval.debug (cfg.withLogger l) message) id :=
  mirrors_of_tracks (Simulation.tracks_debug (simulation_lawful hSuits) message) fun _ _ h => h

/-! ## Runs -/

theorem paces_run (hSuits : V.Suits cfg l) (fuel : Nat) :
    V.simulation.Paces (run cfg fuel) (run (cfg.withLogger l) fuel) :=
  Simulation.paces_run (simulation_lawful hSuits) (fun h => absurd h (Nat.lt_irrefl _))
    fun h => absurd h (Nat.lt_irrefl _)

theorem mirrors_evaluate (hSuits : V.Suits cfg l) (fuel depth : Nat) (env : Env) (e : Expr) :
    V.Mirrors (run cfg fuel (.evaluate depth env e))
      (run (cfg.withLogger l) fuel (.evaluate depth env (e.respan V.span))) id :=
  mirrors_of_tracks ((paces_run hSuits fuel).evaluate rfl rfl e) fun _ _ h => h

theorem mirrors_execute (hSuits : V.Suits cfg l) (fuel depth : Nat) (env : Env) (s : Stmt) :
    V.Mirrors (run cfg fuel (.execute depth env s))
      (run (cfg.withLogger l) fuel (.execute depth env (s.respan V.span))) V.completion :=
  mirrors_of_tracks ((paces_run hSuits fuel).execute rfl rfl s) fun _ _ h => h

/-! ## Programs -/

/-- The end of a statement at the top level, in disguise. -/
def topEnd (V : Disguise) (r : Completion × Value) : Completion × Value := (V.completion r.1, r.2)

/-- The end of a program in disguise. -/
def outcome (V : Disguise) : Outcome → Outcome
  | .uncaught t => .uncaught (V.thrown t)
  | o => o

/-- An expression at the top level, whose value is kept. -/
theorem mirrors_executeTop_expr (hSuits : V.Suits cfg l) (env : Env) (e : Expr)
    (span : Option Span) :
    V.Mirrors (executeTop cfg env (.simple (.expr e span)))
      (executeTop (cfg.withLogger l) env (.simple (.expr (e.respan V.span) (V.span span))))
      V.topEnd := by
  intro m
  have hRun : evaluate (cfg.withLogger l) (cfg.withLogger l).fuel 0 env (e.respan V.span)
      (V.machine m) = V.result id (evaluate cfg cfg.fuel 0 env e m) :=
    mirrors_evaluate hSuits cfg.fuel 0 env e m
  unfold executeTop
  dsimp only
  rw [hRun]
  cases evaluate cfg cfg.fuel 0 env e m with
  | ok v m' => rfl
  | error signal m' =>
    dsimp only [result]
    rw [signal_toThrown?]
    cases signal.toThrown? span <;> rfl

theorem mirrors_executeTop (hSuits : V.Suits cfg l) (env : Env) (s : Stmt) :
    V.Mirrors (executeTop cfg env s) (executeTop (cfg.withLogger l) env (s.respan V.span))
      V.topEnd := by
  by_cases hExpr : ∃ e span, s = .simple (.expr e span)
  · obtain ⟨e, span, rfl⟩ := hExpr
    exact mirrors_executeTop_expr hSuits env e span
  · have hOther : ∀ e span, s.respan V.span ≠ .simple (.expr e span) := by
      intro e span h
      cases s with
      | simple s =>
        cases s with
        | expr e' span' => exact hExpr ⟨e', span', rfl⟩
        | var | const => cases h
      | _ => cases h
    rw [executeTop_eq fun e span h => hExpr ⟨e, span, h⟩, executeTop_eq hOther]
    exact mirrors_bind (mirrors_execute hSuits cfg.fuel 0 env s) fun c => mirrors_pure rfl

/-- Unless statements are counted differently in disguise, programs do not see it. -/
theorem mirrors_interpretFrom (hSuits : V.Suits cfg l) (hCount : V.count = id)
    (halt : Nat → Bool) (env : Env) (value : Value) (body : List Stmt) :
    V.Mirrors (interpretFrom cfg halt env value body)
      (interpretFrom (cfg.withLogger l) halt env value (body.map (Stmt.respan V.span)))
      V.outcome := by
  induction body generalizing value with
  | nil => exact mirrors_pure rfl
  | cons s rest ih =>
    have hExecuted : ∀ m, (V.machine m).executed = m.executed := by
      intro m
      change V.count m.executed = _
      rw [hCount]
      rfl
    refine mirrors_bind (r := V.machine) (fun _ => rfl) fun m => ?_
    rw [hExecuted]
    refine mirrors_ite Iff.rfl (mirrors_pure rfl) ?_
    refine mirrors_bind (mirrors_executeTop hSuits env s) fun r => ?_
    obtain ⟨c, v⟩ := r
    have hCounts : V.Mirrors (modify fun m => { m with executed := m.executed + 1 })
        (modify fun m => { m with executed := m.executed + 1 }) id := by
      intro m
      change EStateM.Result.ok () { V.machine m with executed := (V.machine m).executed + 1 } =
        .ok () { V.machine m with executed := V.count (m.executed + 1) }
      rw [hExecuted, hCount]
      rfl
    refine mirrors_bind hCounts fun _ => ?_
    cases c with
    | normal => exact ih v
    | throw t =>
      refine mirrors_bind (mirrors_display hSuits _ _) fun text => ?_
      exact mirrors_bind (mirrors_debug hSuits _) fun _ => mirrors_pure rfl
    | _ => exact mirrors_pure rfl

theorem mirrors_interpret (hSuits : V.Suits cfg l) (hCount : V.count = id) (halt : Nat → Bool)
    (env : Env) (p : Program) :
    V.Mirrors (interpret cfg halt env p)
      (interpret (cfg.withLogger l) halt env (p.respan V.span)) V.outcome :=
  mirrors_interpretFrom hSuits hCount halt env .null p.body

end Disguise

/-! ## The count of statements -/

namespace Disguise

/-- Only the number of statements run so far is changed. -/
def recount (n : Nat) : Disguise where
  span := id
  log := id
  count _ := n
  unplaced := rfl
  settled _ _ := rfl

theorem machine_recount (m : Machine) : (recount m.executed).machine m = m := by
  have hClosure : (recount m.executed).closure = id := by
    funext c
    exact congrArg (fun f => { c with definition := f }) (FuncDef.respan_id c.definition)
  have hHeap : (recount m.executed).heap m.heap = m.heap := by
    unfold heap
    rw [hClosure, Array.map_id]
  unfold machine
  rw [hHeap]
  rfl

/-- A computation that another count does not change leaves the count as it is. -/
theorem executed_of_mirrors {α : Type} {x : Eval α} {r : α → α} {m : Machine}
    (h : (recount m.executed).Mirrors x x r) : (x.final m).executed = m.executed := by
  have hRun := h m
  rw [machine_recount] at hRun
  unfold Eval.final
  rw [hRun]
  cases x m <;> rfl

end Disguise

/-- A statement at the top level does not count itself. -/
theorem executed_executeTop (cfg : Settings) (env : Env) (s : Stmt) (m : Machine) :
    ((executeTop cfg env s).final m).executed = m.executed := by
  have hSuits : (Disguise.recount m.executed).Suits cfg cfg.logger := fun _ _ => rfl
  have hMirrors := Disguise.mirrors_executeTop hSuits env s
  have hSame : s.respan (Disguise.recount m.executed).span = s := Stmt.respan_id s
  rw [hSame] at hMirrors
  exact Disguise.executed_of_mirrors hMirrors

end Tern
