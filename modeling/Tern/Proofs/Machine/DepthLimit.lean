import Tern.Proofs.History
import Tern.Proofs.Machine.CallDepth

/-!
# Raising the limit of the call depth

The limit of the call depth is read in one place, where a call is refused. So a run that refuses
no call comes out the same under any higher limit. Programs can catch the refusal and go on from
there, which is why the runs are compared moment by moment and not by how they end.

* `Refuses`: a moment of the run ends because a call was refused for its depth;
* `run_withLimit`: a run that never does is the same under a higher limit;
* `Session.unchanged_withLimit`: the same for the runs of a session.
-/

namespace Tern

/-- The same settings with another limit of the call depth. -/
def Settings.withLimit (cfg : Settings) (limit : Nat) : Settings :=
  { cfg with maxCallDepth := limit }

/-- Somewhere in the run of `t` from `m` a call is refused for its depth, whether or not the
program catches that. -/
def Refuses (cfg : Settings) (fuel : Nat) (t : Task) (m : Machine) : Prop :=
  ∃ k depth id self args m' limit span m'',
    Moment cfg fuel t m k (.applyFunc depth id self args) m' ∧
      run cfg k (.applyFunc depth id self args) m' = .error (.fault ⟨.callDepth limit, span⟩) m''

variable {cfg : Settings} {limit : Nat} {t : Task} {m : Machine}

/-! ## Moments of a part -/

theorem Moment.within {fuel k : Nat} {t t' t'' : Task} {m' m'' : Machine}
    (need : Needs cfg (Tern.run cfg fuel) t m t' m') (h : Moment cfg fuel t' m' k t'' m'') :
    Moment cfg (fuel + 1) t m k t'' m'' := by
  induction h with
  | start => exact .part .start need
  | part _ need' ih => exact .part ih need'

theorem Refuses.within {fuel : Nat} {t t' : Task} {m' : Machine}
    (need : Needs cfg (run cfg fuel) t m t' m') (h : Refuses cfg fuel t' m') :
    Refuses cfg (fuel + 1) t m := by
  obtain ⟨k, depth, id, self, args, m₁, limit, span, m₂, hMoment, hRun⟩ := h
  exact ⟨k, depth, id, self, args, m₁, limit, span, m₂, hMoment.within need, hRun⟩

/-! ## One step -/

/-- A call that is not refused under one limit is not refused under another that leaves room. -/
theorem checkCall_withLimit (hRoom : m.callDepth < cfg.maxCallDepth → m.callDepth < limit)
    (f : FuncDef) (received : Nat) :
    Eval.checkCall (cfg.withLimit limit) f received m = Eval.checkCall cfg f received m ∨
      ∃ n, Eval.checkCall cfg f received m = .error (.fault ⟨.callDepth n, none⟩) m := by
  rw [checkCall_eq, checkCall_eq]
  by_cases hArity : f.params.length ≠ received
  · rw [if_pos hArity, if_pos hArity]
    exact .inl rfl
  rw [if_neg hArity, if_neg hArity]
  by_cases hDepth : cfg.maxCallDepth ≤ m.callDepth
  · rw [if_pos hDepth]
    exact .inr ⟨_, rfl⟩
  · have hBelow : ¬(cfg.withLimit limit).maxCallDepth ≤ m.callDepth :=
      Nat.not_le_of_lt (hRoom (Nat.lt_of_not_le hDepth))
    rw [if_neg hDepth, if_neg hBelow]
    exact .inl rfl

theorem displayAll_withLimit (depth : Nat) (vs : List Value) :
    Eval.displayAll (cfg.withLimit limit) depth vs = Eval.displayAll cfg depth vs := by
  induction vs with
  | nil => rfl
  | cons v rest ih =>
    unfold Eval.displayAll
    rw [ih]
    rfl

theorem routine_withLimit (callBack : Value → List Value → Eval Value) (depth : Nat)
    (r : Routine) :
    Eval.routine (cfg.withLimit limit) callBack depth r = Eval.routine cfg callBack depth r := by
  induction r with
  | reply r => rfl
  | ask q next ih =>
    have hRequest : Eval.request (cfg.withLimit limit) depth q = Eval.request cfg depth q := by
      cases q <;> rfl
    unfold Eval.routine
    rw [hRequest, funext ih]
  | call callee args next ih =>
    unfold Eval.routine
    rw [funext ih]

theorem callNative_withLimit (callBack : Value → List Value → Eval Value) (depth : Nat)
    (f : Native) (args : List Value) :
    Eval.callNative (cfg.withLimit limit) callBack depth f args =
      Eval.callNative cfg callBack depth f args := by
  have hRun : Eval.runNative (cfg.withLimit limit) callBack depth f args =
      Eval.runNative cfg callBack depth f args := by
    cases f with
    | print =>
      unfold Eval.runNative
      rw [displayAll_withLimit]
    | foreign name arity => exact routine_withLimit callBack depth (cfg.host name args)
    | _ => rfl
  unfold Eval.callNative
  rw [hRun]

/-- A step is the same under both limits, or it is a call that is refused. -/
theorem step_withLimit (hRoom : m.callDepth < cfg.maxCallDepth → m.callDepth < limit) :
    (∀ inner, step (cfg.withLimit limit) inner t m = step cfg inner t m) ∨
      ∃ depth id self args n, t = .applyFunc depth id self args ∧ ∀ inner,
        step cfg inner (.applyFunc depth id self args) m =
          .error (.fault ⟨.callDepth n, none⟩) m := by
  cases t with
  | applyFunc depth id self args =>
    rcases checkCall_withLimit hRoom (m.heap.closure id).definition args.length with
      hSame | ⟨n, hRefused⟩
    · refine .inl fun inner => ?_
      rw [step_applyFunc, step_applyFunc, hSame]
    · refine .inr ⟨depth, id, self, args, n, rfl, fun inner => ?_⟩
      rw [step_applyFunc, hRefused]
  | apply depth callee args =>
    cases callee with
    | native f => exact .inl fun _ => congrFun (callNative_withLimit _ depth f args) m
    | _ => exact .inl fun _ => rfl
  | _ => exact .inl fun _ => rfl

/-! ## Runs -/

/-- A run in which no call is refused for its depth is the same under a higher limit. -/
theorem run_withLimit (hLimit : cfg.maxCallDepth ≤ limit) (fuel : Nat) (t : Task) (m : Machine)
    (hNever : ¬Refuses cfg fuel t m) : run (cfg.withLimit limit) fuel t m = run cfg fuel t m := by
  induction fuel generalizing t m with
  | zero => rfl
  | succ fuel ih =>
    have hParts : step cfg (run (cfg.withLimit limit) fuel) t m = step cfg (run cfg fuel) t m := by
      refine Classical.byContradiction fun hApart => ?_
      have hScript := (Discipline.unordered_lawful cfg).scripted_step t
      obtain ⟨t', m', hDiffers, hBreaks⟩ := hScript.breaksAt_of_ne hApart
      exact hDiffers (ih t' m' fun h => hNever (h.within (needs_of_breaksAt hBreaks)))
    have hRoom : m.callDepth < cfg.maxCallDepth → m.callDepth < limit := by omega
    change step (cfg.withLimit limit) (run (cfg.withLimit limit) fuel) t m =
      step cfg (run cfg fuel) t m
    rcases step_withLimit hRoom (t := t) with hSame | ⟨depth, id, self, args, n, rfl, hRefused⟩
    · rw [hSame, hParts]
    · exact absurd ⟨_, _, _, _, _, _, _, _, _, .start, hRefused (run cfg fuel)⟩ hNever

/-! ### Short runs -/

/-- A step is at most one call deeper where it needs a part. -/
theorem callDepth_of_needs {fuel : Nat} {t' : Task} {m' : Machine}
    (h : Needs cfg (run cfg fuel) t m t' m') : m'.callDepth ≤ m.callDepth + 1 := by
  obtain ⟨other, hSame, hDiffers⟩ := h
  refine Classical.byContradiction fun hDeep => ?_
  have hRoom : m.callDepth < cfg.maxCallDepth → m.callDepth < m.callDepth + 1 := by omega
  rcases step_withLimit hRoom (t := t) with hStep | ⟨depth, id, self, args, n, rfl, hRefused⟩
  · have hVal : ∀ h v, (callDepthKept (m.callDepth + 1)).Val h v := fun _ _ => trivial
    have hAgree : (callDepthKept (m.callDepth + 1)).Agree (run cfg fuel) other := by
      intro u k hk _
      have hEqual : other u k = run cfg fuel u k := by
        apply hSame
        rintro ⟨rfl, rfl⟩
        exact hDeep hk
      have hNext := next_of_callDepth hk (callDepth_final cfg k fuel u)
      have hHolds := Discipline.holds_of_next hVal (fun _ => trivial)
        (fun m' => Discipline.yields_of_val hVal m'.heap u) hNext
      exact ⟨hEqual, hHolds.2⟩
    have hLawful : (callDepthKept (m.callDepth + 1)).Lawful (cfg.withLimit (m.callDepth + 1)) :=
      callDepthKept_lawful (Nat.le_refl _)
    have hEnds := (hLawful.agree_step hAgree t m (Nat.le_succ _) (callDepthKept_fits _ t)).1
    rw [hStep, hStep] at hEnds
    exact hDiffers hEnds
  · exact hDiffers ((hRefused other).trans (hRefused _).symm)

/-- Every call on the way to a moment has taken some of the fuel. -/
theorem callDepth_of_moment {fuel k : Nat} {t' : Task} {m' : Machine}
    (h : Moment cfg fuel t m k t' m') : m'.callDepth + k ≤ m.callDepth + fuel := by
  induction h with
  | start => exact Nat.le_refl _
  | part _ need ih =>
    have hDeeper := callDepth_of_needs need
    omega

/-- A run whose fuel does not last to the limit of the call depth refuses no call. -/
theorem not_refuses_of_fuel {fuel : Nat} (hFuel : m.callDepth + fuel ≤ cfg.maxCallDepth) :
    ¬Refuses cfg fuel t m := by
  rintro ⟨k, depth, id, self, args, m', limit, span, m₂, hMoment, hRun⟩
  have hDepth := callDepth_of_moment hMoment
  cases k with
  | zero => cases hRun
  | succ k =>
    have hFull := ((applyFunc_callDepth_iff (by omega) k depth id self args).mp
      ⟨limit, span, m₂, hRun⟩).2
    omega

/-! ## Programs -/

/-- Somewhere in the run of statements at the top level a call is refused for its depth. -/
def RefusesAmong (cfg : Settings) (halt : Nat → Bool) (env : Env) (body : List Stmt)
    (m : Machine) : Prop :=
  ∃ s m', Starts cfg halt env body m s m' ∧ Refuses cfg cfg.fuel (s.topTask env) m'

variable {halt : Nat → Bool} {env : Env}

theorem executeTop_withLimit (hLimit : cfg.maxCallDepth ≤ limit) {s : Stmt}
    (hNever : ¬Refuses cfg cfg.fuel (s.topTask env) m) :
    executeTop (cfg.withLimit limit) env s m = executeTop cfg env s m := by
  have hRun := run_withLimit hLimit cfg.fuel (s.topTask env) m hNever
  by_cases hExpr : ∃ e span, s = .simple (.expr e span)
  · obtain ⟨e, span, rfl⟩ := hExpr
    have hTop : run (cfg.withLimit limit) (cfg.withLimit limit).fuel (.evaluate 0 env e) m =
        run cfg cfg.fuel (.evaluate 0 env e) m := hRun
    unfold executeTop evaluate
    dsimp only
    rw [hTop]
  · have hOther : ∀ e span, s ≠ .simple (.expr e span) := fun e span h => hExpr ⟨e, span, h⟩
    rw [Stmt.topTask_eq hOther] at hRun
    rw [executeTop_eq hOther, executeTop_eq hOther]
    change EStateM.bind (run (cfg.withLimit limit) cfg.fuel (.execute 0 env s)) _ m =
      EStateM.bind (run cfg cfg.fuel (.execute 0 env s)) _ m
    unfold EStateM.bind
    rw [hRun]

/-- A program that refuses no call runs the same under a higher limit. -/
theorem interpretFrom_withLimit (hLimit : cfg.maxCallDepth ≤ limit) (body : List Stmt)
    (value : Value) (hNever : ¬RefusesAmong cfg halt env body m) :
    interpretFrom (cfg.withLimit limit) halt env value body m =
      interpretFrom cfg halt env value body m := by
  induction body generalizing m value with
  | nil => rfl
  | cons s rest ih =>
    by_cases hHalt : halt m.executed = true
    · rw [interpretFrom_halted hHalt, interpretFrom_halted hHalt]
    have hGoesOn : halt m.executed = false := Bool.not_eq_true _ ▸ hHalt
    have hFirst := executeTop_withLimit hLimit fun h =>
      hNever ⟨s, m, .first hGoesOn, h⟩
    cases hTop : executeTop cfg env s m with
    | error signal m₁ =>
      rw [hTop] at hFirst
      rw [interpretFrom_error hGoesOn hTop, interpretFrom_error hGoesOn hFirst]
    | ok r m₁ =>
      obtain ⟨c, v⟩ := r
      rw [hTop] at hFirst
      rw [interpretFrom_ok hGoesOn hTop, interpretFrom_ok hGoesOn hFirst]
      cases c with
      | normal =>
        refine ih (m := { m₁ with executed := m₁.executed + 1 }) v ?_
        rintro ⟨s', m', hStarts, hRefuses⟩
        exact hNever ⟨s', m', .later hGoesOn hTop hStarts, hRefuses⟩
      | _ => rfl

theorem callDepth_of_starts {body : List Stmt} {s : Stmt} {m' : Machine}
    (h : Starts cfg halt env body m s m') : m'.callDepth = m.callDepth := by
  induction h with
  | first => rfl
  | @later s s' rest m m₁ m' v _ ends _ ih =>
    have hFirst := callDepth_final cfg m cfg.fuel (s.topTask env)
    rw [← final_executeTop, Eval.final_of_ok ends] at hFirst
    exact ih.trans hFirst

/-! ## Sessions -/

namespace Session

/-- The same session under another limit of the call depth. -/
def withLimit (s : Session) (limit : Nat) : Session :=
  { s with settings := s.settings.withLimit limit }

/-- Somewhere in the run of a program in the session a call is refused for its depth. -/
def RefusesCall (s : Session) (p : Program) (path : Option String) : Prop :=
  RefusesAmong s.settings s.halt s.globals p.body (s.noted p path)

variable {s : Session}

theorem perform_withLimit {α : Type} {x y : Eval α} (h : y s.machine = x s.machine) :
    (s.withLimit limit).perform y = ((s.perform x).1, (s.perform x).2.withLimit limit) := by
  unfold perform
  have hHere : y (s.withLimit limit).machine = x s.machine := h
  rw [hHere]
  cases x s.machine <;> rfl

theorem runProgram_withLimit (hLimit : s.settings.maxCallDepth ≤ limit) {p : Program}
    {path : Option String} (hNever : ¬s.RefusesCall p path) :
    (s.withLimit limit).runProgram p path =
      ((s.runProgram p path).1, (s.runProgram p path).2.withLimit limit) := by
  refine perform_withLimit ?_
  have hRun : interpret (s.settings.withLimit limit) s.halt s.globals p (s.noted p path) =
      interpret s.settings s.halt s.globals p (s.noted p path) :=
    interpretFrom_withLimit hLimit p.body .null hNever
  rw [runIn_eq]
  change EStateM.bind (interpret (s.settings.withLimit limit) s.halt s.globals p)
    ((s.withLimit limit).reportOn path) (s.noted p path) = _
  unfold EStateM.bind
  rw [hRun]
  rfl

theorem not_refusesCall_of_fuel
    (hFuel : s.machine.callDepth + s.settings.fuel ≤ s.settings.maxCallDepth) (p : Program)
    (path : Option String) : ¬s.RefusesCall p path := by
  rintro ⟨t, m', hStarts, hRefuses⟩
  have hDepth := callDepth_of_starts hStarts
  have hAnnounced : (s.noted p path).callDepth = s.machine.callDepth := rfl
  exact not_refuses_of_fuel (by omega) hRefuses

/-- The runs of a session in which no call is refused for its depth, even if the program catches
that, are the same under a higher limit: so are the result or the diagnostic, and the machine
with the globals, the output, the lines left to read, the log and the number of statements. This
holds of programs in every environment and from every machine, however they end, and so of the
programs and sources that a session runs. -/
theorem unchanged_withLimit (s : Session) (limit : Nat)
    (hLimit : s.settings.maxCallDepth ≤ limit) :
    (∀ env p m, ¬RefusesAmong s.settings s.halt env p.body m →
      interpret (s.settings.withLimit limit) s.halt env p m =
        interpret s.settings s.halt env p m) ∧
    (∀ p path, ¬s.RefusesCall p path →
      (s.withLimit limit).runProgram p path =
        ((s.runProgram p path).1, (s.runProgram p path).2.withLimit limit)) ∧
    ∀ source path, (∀ p, Program.parse? source = .ok p → ¬s.RefusesCall p path) →
      (s.withLimit limit).run source path =
        ((s.run source path).1, (s.run source path).2.withLimit limit) := by
  refine ⟨fun env p m hNever => interpretFrom_withLimit hLimit p.body .null hNever,
    fun p path hNever => runProgram_withLimit hLimit hNever, fun source path hNever => ?_⟩
  cases hParse : Program.parse? source with
  | ok p =>
    rw [run_eq hParse, run_eq hParse]
    exact runProgram_withLimit hLimit (hNever p hParse)
  | error e =>
    unfold run
    rw [hParse]
    exact perform_withLimit rfl

/-- A session as it is opened, with fuel for short runs only. -/
def short : Session :=
  { standard with settings := { standard.settings with fuel := 200 } }

/-- A function that calls itself a few times does the same under every higher limit. -/
theorem unchanged_withLimit_short :
    (short.withLimit 1000).run "func f(n) { if (n > 0) { f(n - 1); } } f(3);" none =
      ((short.run "func f(n) { if (n > 0) { f(n - 1); } } f(3);" none).1,
        (short.run "func f(n) { if (n > 0) { f(n - 1); } } f(3);" none).2.withLimit 1000) :=
  (unchanged_withLimit short 1000 (by decide)).2.2 _ _
    fun p _ => not_refusesCall_of_fuel (by decide) p none

end Session

end Tern
