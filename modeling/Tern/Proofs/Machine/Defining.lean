import Tern.Proofs.History

/-!
# Where classes are defined

A class definition is the one change that makes a value out of the state of the machine alone: its
number is the next that was not given away. So what holds of classes depends on which definitions
a run comes to, and from which machines. Here a discipline that is `Steady` is kept by every run
whose class definitions it admits, and so it holds of every machine that a session comes by.

* `Defines`, `Session.Defines`: the class definitions that a run or a session comes to;
* `Discipline.Admits`: a class definition that leads to a machine that may come next;
* `Discipline.Steady.next_run_of_defines`: a run whose class definitions are admitted;
* `Discipline.Steady.inv_of_meets`: the machines that a session comes by.
-/

namespace Tern

/-- The run of `t` from `m` comes to define the class, in the environment, from `k`. -/
inductive Defines (cfg : Settings) :
    Nat → Task → Machine → Env → ClassDef → Machine → Prop where
  | here {fuel depth : Nat} {env : Env} {c : ClassDef} {m : Machine}
      (room : cfg.isFull depth = false) :
      Defines cfg (fuel + 1) (.execute depth env (.cls c)) m env c m
  | part {fuel : Nat} {t t' : Task} {m m' k : Machine} {env : Env} {c : ClassDef}
      (need : Needs cfg (run cfg fuel) t m t' m') (inside : Defines cfg fuel t' m' env c k) :
      Defines cfg (fuel + 1) t m env c k

/-- A step that defines a class needs no parts. -/
theorem not_needs_cls {cfg : Settings} {inner : Worker} {depth : Nat} {env : Env} {c : ClassDef}
    {t : Task} {m k : Machine} : ¬Needs cfg inner (.execute depth env (.cls c)) m t k :=
  fun ⟨_, _, hDiffers⟩ => hDiffers rfl

namespace Discipline

variable {D : Discipline} {cfg : Settings} {fuel : Nat} {t t' : Task} {m m' x k : Machine}
  {env : Env} {c : ClassDef}

/-- The definition of the class from that machine leads to a machine that may come next. -/
def Admits (D : Discipline) (env : Env) (c : ClassDef) (k : Machine) : Prop :=
  ∀ σ ctx, D.Inv k → D.At k.heap σ env → D.Code σ ctx (.stmt (.cls c)) →
    D.Next k ((Eval.defineClass env c).final k)

theorem Lawful.admits (L : D.Lawful cfg) (env : Env) (c : ClassDef) (k : Machine) :
    D.Admits env c k :=
  fun _ _ hInv hAt hCode => L.defineClass hInv hAt hCode

/-- Every class definition that the run of the task comes to is admitted. -/
def Allows (D : Discipline) (cfg : Settings) (fuel : Nat) (t : Task) (m : Machine) : Prop :=
  ∀ env c k, Defines cfg fuel t m env c k → D.Admits env c k

theorem Allows.part (h : D.Allows cfg (fuel + 1) t m) (hNeeds : Needs cfg (run cfg fuel) t m t' m') :
    D.Allows cfg fuel t' m' :=
  fun env c k hDefines => h env c k (.part hNeeds hDefines)

/-! ## Runs -/

/-- The worker that does what is allowed and breaks off at everything else. -/
noncomputable def allowed (D : Discipline) (cfg : Settings) (fuel : Nat) : Worker := fun t m =>
  open Classical in
    if D.Allows cfg fuel t m then run cfg fuel t m else .error .exhausted m

theorem allowed_of_allows (h : D.Allows cfg fuel t m) :
    D.allowed cfg fuel t m = run cfg fuel t m := by
  simp [allowed, h]

theorem allowed_of_not_allows (h : ¬D.Allows cfg fuel t m) :
    D.allowed cfg fuel t m = .error .exhausted m := by
  simp [allowed, h]

/-- What is allowed as a whole never comes to a part that is not, even when it breaks off at
another one. -/
theorem step_allowed (h : D.Allows cfg (fuel + 1) t m) :
    step cfg (D.allowed cfg fuel) t m = step cfg (run cfg fuel) t m := by
  refine Classical.byContradiction fun hDiffers => ?_
  obtain ⟨u, l, hApart, hBreaks⟩ :=
    ((unordered_lawful cfg).scripted_step t).breaksAt_of_ne hDiffers
  exact hApart (allowed_of_allows (h.part (needs_of_breaksAt hBreaks)))

theorem step_allowed_interrupt (h : D.Allows cfg (fuel + 1) t m) (t' : Task) (m' : Machine)
    (message : String) :
    step cfg ((D.allowed cfg fuel).interrupt t' m' message) t m =
      step cfg ((run cfg fuel).interrupt t' m' message) t m := by
  have hScript := (unordered_lawful cfg).scripted_step t
  refine Classical.byContradiction fun hDiffers => ?_
  obtain ⟨u, l, hApart, hBreaks⟩ := hScript.breaksAt_of_ne hDiffers
  have hNeeds := needs_of_breaksAt (hBreaks.of_interrupt hScript)
  refine hApart ?_
  by_cases hSame : u = t' ∧ l = m'
  · obtain ⟨rfl, rfl⟩ := hSame
    rw [Worker.interrupt_self, Worker.interrupt_self]
  · rw [Worker.interrupt_other hSame, Worker.interrupt_other hSame,
      allowed_of_allows (h.part hNeeds)]

/-- A step whose class definitions are allowed, with workers that keep the discipline. -/
theorem Steady.twin_allowed (L : D.Steady cfg) {inner other : Worker}
    (hAgree : D.Agree inner other) (h : D.Allows cfg (fuel + 1) t m) (hInv : D.Inv m)
    (hFits : D.Fits m.heap t) :
    D.Twin m m (step cfg inner t) (step cfg other t) fun m' => D.Yields m'.heap t := by
  refine L.twin_step hAgree hInv hFits ?_
  rintro depth env c rfl hRoom
  obtain ⟨σ, ctx, hAt, hCode⟩ := hFits
  exact h env c m (.here hRoom) σ ctx hInv hAt hCode

/-- A worker that keeps a steady discipline in what is allowed keeps it when it does only that. -/
theorem Steady.agree_allowed_of (L : D.Steady cfg)
    (hRun : ∀ u l, D.Allows cfg fuel u l → D.Inv l → D.Fits l.heap u →
      D.Holds l l (run cfg fuel u) fun m' => D.Yields m'.heap u) :
    D.Agree (D.allowed cfg fuel) (D.allowed cfg fuel) := by
  intro u l hl hu
  refine ⟨rfl, ?_⟩
  by_cases hAllows : D.Allows cfg fuel u l
  · rw [allowed_of_allows hAllows]
    exact (hRun u l hAllows hl hu).2
  · rw [allowed_of_not_allows hAllows]
    exact ⟨L.here hl, trivial⟩

/-- A run whose class definitions are allowed keeps a steady discipline. -/
theorem Steady.holds_run_of_allows (L : D.Steady cfg) (h : D.Allows cfg fuel t m) (hInv : D.Inv m)
    (hFits : D.Fits m.heap t) :
    D.Holds m m (run cfg fuel t) fun m' => D.Yields m'.heap t := by
  induction fuel generalizing t m with
  | zero => exact twin_throw (L.here hInv) trivial
  | succ fuel ih =>
    have hAgree : D.Agree (D.allowed cfg fuel) (D.allowed cfg fuel) :=
      L.agree_allowed_of fun u l hAllows hl hu => ih hAllows hl hu
    have hStep := (L.twin_allowed hAgree h hInv hFits).2
    rw [step_allowed h] at hStep
    exact ⟨rfl, hStep⟩

/-- What such a run needs, a steady discipline admits. -/
theorem Steady.fits_of_needs_of_allows (L : D.Steady cfg) (h : D.Allows cfg (fuel + 1) t m)
    (hInv : D.Inv m) (hFits : D.Fits m.heap t) (hNeeds : Needs cfg (run cfg fuel) t m t' m') :
    D.Inv m' ∧ D.Fits m'.heap t' := by
  refine Classical.byContradiction fun hOutside => ?_
  -- breaking off outside of the discipline makes no difference, but it does where it is needed
  refine BreaksAt.not_of_const (r := step cfg (run cfg fuel) t m) (fun message => ?_)
    (needs_iff.mp hNeeds)
  have hKept : D.Agree (D.allowed cfg fuel) (D.allowed cfg fuel) :=
    L.agree_allowed_of fun u l hAllows => L.holds_run_of_allows hAllows
  have hAgree : D.Agree (D.allowed cfg fuel) ((D.allowed cfg fuel).interrupt t' m' message) := by
    intro u l hl hu
    have hOther : ¬(u = t' ∧ l = m') := by
      rintro ⟨rfl, rfl⟩
      exact hOutside ⟨hl, hu⟩
    exact ⟨Worker.interrupt_other hOther, (hKept u l hl hu).2⟩
  rw [← step_allowed_interrupt h, ← step_allowed h]
  exact (L.twin_allowed hAgree h hInv hFits).1

/-- Every machine that such a run comes by satisfies the invariant. -/
theorem Steady.inv_of_comes (L : D.Steady cfg) (h : D.Allows cfg fuel t m) (hInv : D.Inv m)
    (hFits : D.Fits m.heap t) (hComes : Comes cfg fuel t m x) : D.Inv x := by
  induction hComes with
  | start => exact hInv
  | stop => exact (L.holds_run_of_allows h hInv hFits).next.1
  | part need _ ih =>
    obtain ⟨hInv', hFits'⟩ := L.fits_of_needs_of_allows h hInv hFits need
    exact ih (h.part need) hInv' hFits'

end Discipline

/-! ## Programs -/

section

variable (cfg : Settings) (halt : Nat → Bool) (env : Env)

/-- The run of the statements from `m` comes to define the class from `k`. -/
inductive DefinesAmong : List Stmt → Machine → Env → ClassDef → Machine → Prop where
  | inside {s : Stmt} {rest : List Stmt} {m k : Machine} {env' : Env} {c : ClassDef}
      (goesOn : halt m.executed = false)
      (defines : Defines cfg cfg.fuel (s.topTask env) m env' c k) :
      DefinesAmong (s :: rest) m env' c k
  | later {s : Stmt} {rest : List Stmt} {m m₁ k : Machine} {v : Value} {env' : Env} {c : ClassDef}
      (goesOn : halt m.executed = false) (ends : executeTop cfg env s m = .ok (.normal, v) m₁)
      (defines : DefinesAmong rest { m₁ with executed := m₁.executed + 1 } env' c k) :
      DefinesAmong (s :: rest) m env' c k

end

namespace Discipline

section

variable {D : Discipline} {cfg : Settings} {halt : Nat → Bool} {env : Env} {body : List Stmt}
  {m m₁ x : Machine} {σ : D.Site} (L : D.Steady cfg) (hCode : ∀ ctx n, D.Code σ ctx n)

/-- Every class definition that the run of the statements comes to is admitted. -/
def AllowsAmong (D : Discipline) (cfg : Settings) (halt : Nat → Bool) (env : Env)
    (body : List Stmt) (m : Machine) : Prop :=
  ∀ env' c k, DefinesAmong cfg halt env body m env' c k → D.Admits env' c k

include L

/-- The report of a value that was thrown. -/
theorem Steady.holds_displayThen {α : Type} (hInv : D.Inv m) (v : Value) (depth : Nat)
    {f : String → Eval α} (hf : ∀ text, D.Holds m m (f text) fun _ _ => True) :
    D.Holds m m (do let text ← Eval.display cfg depth v; f text) fun _ _ => True := by
  refine twin_bind (holds_display (L.here hInv) _ _) ?_
  rintro text m' - rfl
  exact hf text

include hCode

theorem Steady.next_executeTop {s : Stmt} (hInv : D.Inv m) (hAt : D.At m.heap σ env)
    (h : D.Allows cfg cfg.fuel (s.topTask env) m) :
    D.Next m ((executeTop cfg env s).final m) := by
  rw [final_executeTop]
  exact (L.holds_run_of_allows h hInv (L.fits_topTask hAt (hCode .top (.stmt s)))).next

/-- The machine from which the next statement starts. -/
theorem Steady.next_counted {s : Stmt} {c : Completion} {v : Value} (hInv : D.Inv m)
    (hAt : D.At m.heap σ env) (h : D.Allows cfg cfg.fuel (s.topTask env) m)
    (ends : executeTop cfg env s m = .ok (c, v) m₁) :
    D.Next m { m₁ with executed := m₁.executed + 1 } := by
  have hTop := L.next_executeTop hCode hInv hAt h
  rw [Eval.final_of_ok ends] at hTop
  have hCount := L.next_count hTop.1
  exact ⟨hCount.1, L.trans hTop.2 hCount.2⟩

theorem Steady.next_interpretFrom (hInv : D.Inv m) (hAt : D.At m.heap σ env)
    (h : D.AllowsAmong cfg halt env body m) (value : Value) :
    D.Next m ((interpretFrom cfg halt env value body).final m) := by
  induction body generalizing m value with
  | nil => exact L.here hInv
  | cons s rest ih =>
    cases hGoes : halt m.executed with
    | true =>
      rw [Eval.final_of_ok (interpretFrom_halted hGoes value)]
      exact L.here hInv
    | false =>
      have hFirst : D.Allows cfg cfg.fuel (s.topTask env) m :=
        fun env' c k hDefines => h env' c k (.inside hGoes hDefines)
      have hTop := L.next_executeTop hCode hInv hAt hFirst
      cases hRun : executeTop cfg env s m with
      | error signal m₁ =>
        rw [Eval.final_of_error hRun] at hTop
        rw [Eval.final_of_error (interpretFrom_error hGoes hRun value)]
        exact hTop
      | ok r m₁ =>
        obtain ⟨c, v⟩ := r
        have hCounted := L.next_counted hCode hInv hAt hFirst hRun
        have hAfter : D.Next { m₁ with executed := m₁.executed + 1 }
            ((afterTop cfg halt env rest v c).final { m₁ with executed := m₁.executed + 1 }) := by
          cases c with
          | normal =>
            exact ih hCounted.1 (L.at_grows hCounted.2 hAt)
              (fun env' c k hDefines => h env' c k (.later hGoes hRun hDefines)) v
          | throw thrown =>
            refine (L.holds_displayThen hCounted.1 thrown.value 0 fun text => ?_).next
            refine twin_bind (L.holds_debug hCounted.1 _) ?_
            exact fun _ m₂ hm₂ _ => twin_pure hm₂ trivial
          | ret | breakLoop | continueLoop => exact L.here hCounted.1
        have hWhole : (interpretFrom cfg halt env value (s :: rest)).final m =
            (afterTop cfg halt env rest v c).final { m₁ with executed := m₁.executed + 1 } := by
          unfold Eval.final
          rw [interpretFrom_ok hGoes hRun value]
        rw [hWhole]
        exact ⟨hAfter.1, L.trans hCounted.2 hAfter.2⟩

theorem Steady.inv_of_comesAmong (hInv : D.Inv m) (hAt : D.At m.heap σ env)
    (h : D.AllowsAmong cfg halt env body m) (hComes : ComesAmong cfg halt env body m x) :
    D.Inv x := by
  induction hComes with
  | start => exact hInv
  | inside goesOn comes =>
    exact L.inv_of_comes (fun env' c k hDefines => h env' c k (.inside goesOn hDefines)) hInv
      (L.fits_topTask hAt (hCode .top (.stmt _))) comes
  | later goesOn ends _ ih =>
    have hCounted := L.next_counted hCode hInv hAt
      (fun env' c k hDefines => h env' c k (.inside goesOn hDefines)) ends
    exact ih hCounted.1 (L.at_grows hCounted.2 hAt)
      fun env' c k hDefines => h env' c k (.later goesOn ends hDefines)

end

end Discipline

/-! ## Sessions -/

namespace Session

variable {s : Session}

/-- The step comes to define the class from `k`. -/
inductive DefinesIn (s : Session) : Step → Env → ClassDef → Machine → Prop where
  | program {step : Step} {env env' : Env} {p : Program} {m k : Machine} {c : ClassDef}
      (opens : s.Opens step env p m)
      (defines : DefinesAmong s.settings s.halt env p.body m env' c k) : DefinesIn s step env' c k
  | evaluate {e : Expr} {env : Env} {c : ClassDef} {k : Machine}
      (defines : Tern.Defines s.settings s.settings.fuel (.evaluate 0 s.globals e) s.machine
        env c k) :
      DefinesIn s (.evaluate e) env c k

/-- The session comes to define the class from `k` in the steps. -/
inductive Defines : Session → List Step → Env → ClassDef → Machine → Prop where
  | inside {s : Session} {step : Step} {rest : List Step} {env : Env} {c : ClassDef} {k : Machine}
      (defines : s.DefinesIn step env c k) : Defines s (step :: rest) env c k
  | later {s : Session} {step : Step} {rest : List Step} {env : Env} {c : ClassDef} {k : Machine}
      (defines : Defines (s.next step) rest env c k) : Defines s (step :: rest) env c k

theorem globals_next (step : Step) : (s.next step).globals = s.globals := by
  have hPerform : ∀ {α : Type} (x : Eval α), (s.perform x).2.globals = s.globals := by
    intro α x
    unfold perform
    cases x s.machine <;> rfl
  cases step with
  | run source path =>
    change (s.run source path).2.globals = _
    unfold run
    split <;> exact hPerform _
  | runProgram | runScoped | evaluate => exact hPerform _

end Session

namespace Discipline

variable {D : Discipline} {s : Session} {σ : D.Site} {x m : Machine}
  (hCode : ∀ ctx n, D.Code σ ctx n)

/-- Every class definition that the steps come to is admitted. -/
def AllowsSteps (D : Discipline) (s : Session) (steps : List Session.Step) : Prop :=
  ∀ env c k, s.Defines steps env c k → D.Admits env c k

section

variable (L : D.Steady s.settings) (hInv : D.Inv s.machine)
  (hAt : D.At s.machine.heap σ s.globals)
include L hInv hAt

/-- Where the program of a step starts. -/
theorem Steady.next_opens {step : Session.Step} {env : Env} {p : Program}
    (h : s.Opens step env p m) : D.Next s.machine m ∧ D.At m.heap σ env := by
  cases h with
  | run | runProgram => exact ⟨(L.holds_debug hInv _).next, hAt⟩
  | runScoped enters => exact (L.holds_enterBlock (L.here hInv) .top hAt).ok enters

omit hInv hAt in
theorem Steady.next_report (path : Option String) (outcome : Outcome) {m : Machine}
    (hm : D.Inv m) : D.Next m ((s.reportOn path outcome).final m) := by
  cases outcome with
  | completed v => exact L.here hm
  | uncaught t =>
    exact (L.holds_displayThen hm t.value 0 fun text => twin_pure (L.here hm) trivial).next
  | halted n =>
    have hFail : D.Holds m m (s.reportOn path (.halted n)) fun _ _ => True := by
      refine twin_bind (L.holds_debug hm _) ?_
      exact fun _ m₁ hm₁ _ => twin_pure hm₁ trivial
    exact hFail.next

include hCode

theorem Steady.next_steppedProgram {p : Program} (path : Option String)
    (h : D.AllowsAmong s.settings s.halt s.globals p.body (s.noted p path)) :
    D.Next s.machine (s.runProgram p path).2.machine := by
  have hNoted : D.Next s.machine (s.noted p path) := (L.holds_debug hInv _).next
  have hRun := L.next_interpretFrom hCode hNoted.1 (L.at_grows hNoted.2 hAt) h .null
  have hBoth : D.Next s.machine
      ((interpret s.settings s.halt s.globals p).final (s.noted p path)) :=
    ⟨hRun.1, L.trans hNoted.2 hRun.2⟩
  rw [Session.final_runProgram]
  cases hEnd : interpret s.settings s.halt s.globals p (s.noted p path) with
  | error => exact Eval.final_of_error hEnd ▸ hBoth
  | ok outcome m' =>
    rw [Eval.final_of_ok hEnd] at hBoth
    have hReport := L.next_report path outcome hBoth.1
    exact ⟨hReport.1, L.trans hBoth.2 hReport.2⟩

/-- A step of a session whose class definitions are admitted keeps a steady discipline. -/
theorem Steady.next_step {step : Session.Step} {rest : List Session.Step}
    (h : D.AllowsSteps s (step :: rest)) : D.Next s.machine (s.next step).machine := by
  cases step with
  | run source path =>
    cases hParse : Program.parse? source with
    | error e =>
      have hSame : s.next (.run source path) =
          (s.perform (Session.fail s.settings (.ofSyntax e) path)).2 := by
        change (s.run source path).2 = _
        rw [Session.run, hParse]
      rw [hSame]
      exact L.next_fail hInv _ path
    | ok p =>
      have hSame : s.next (.run source path) = (s.runProgram p path).2 :=
        congrArg Prod.snd (Session.run_eq hParse path)
      rw [hSame]
      exact L.next_steppedProgram hCode hInv hAt path fun env c k hDefines =>
        h env c k (.inside (.program (.run hParse) hDefines))
  | runProgram p path =>
    exact L.next_steppedProgram hCode hInv hAt path fun env c k hDefines =>
      h env c k (.inside (.program .runProgram hDefines))
  | runScoped p =>
    cases hEnter : Eval.enter s.globals [] s.machine with
    | error signal m => cases hEnter
    | ok env m =>
      have hOpens : s.Opens (.runScoped p) env p m := .runScoped hEnter
      obtain ⟨hNext, hAt'⟩ := L.next_opens hInv hAt hOpens
      have hAllows : D.AllowsAmong s.settings s.halt env p.body m := fun env c k hDefines =>
        h env c k (.inside (.program hOpens hDefines))
      have hRun := L.next_interpretFrom hCode hNext.1 hAt' hAllows .null
      have hSame : (s.next (.runScoped p)).machine =
          (interpretFrom s.settings s.halt env .null p.body).final m := by
        refine (Session.machine_perform s _).trans ((Eval.final_bind _ _ _).trans ?_)
        rw [hEnter]
        rfl
      rw [hSame]
      exact ⟨hRun.1, L.trans hNext.2 hRun.2⟩
  | evaluate e =>
    have hSame : (s.next (.evaluate e)).machine =
        (run s.settings s.settings.fuel (.evaluate 0 s.globals e)).final s.machine :=
      Session.machine_perform s _
    rw [hSame]
    have hFits : D.Fits s.machine.heap (.evaluate 0 s.globals e) :=
      ⟨σ, .top, hAt, hCode .top (.expr e)⟩
    exact (L.holds_run_of_allows (fun env c k hDefines =>
      h env c k (.inside (.evaluate hDefines))) hInv hFits).next

theorem Steady.inv_of_comesIn {step : Session.Step} {rest : List Session.Step}
    (h : D.AllowsSteps s (step :: rest)) (hComes : s.ComesIn step x) : D.Inv x := by
  cases hComes with
  | program opens comes =>
    obtain ⟨hNext, hAt'⟩ := L.next_opens hInv hAt opens
    exact L.inv_of_comesAmong hCode hNext.1 hAt'
      (fun env c k hDefines => h env c k (.inside (.program opens hDefines))) comes
  | evaluate comes =>
    exact L.inv_of_comes (fun env c k hDefines => h env c k (.inside (.evaluate hDefines))) hInv
      ⟨σ, .top, hAt, hCode .top (.expr _)⟩ comes

end

/-- Every machine that a session comes by satisfies the invariant of a steady discipline, if it
admits all code and the class definitions that the session comes to. -/
theorem Steady.inv_of_meets {steps : List Session.Step} (L : D.Steady s.settings)
    (hCode : ∀ ctx n, D.Code σ ctx n) (hInv : D.Inv s.machine)
    (hAt : D.At s.machine.heap σ s.globals) (h : D.AllowsSteps s steps)
    (hMeets : s.Meets steps x) : D.Inv x := by
  induction hMeets with
  | here => exact hInv
  | inside comes => exact L.inv_of_comesIn hCode hInv hAt h comes
  | @later s step rest x _ ih =>
    have hNext := L.next_step hCode hInv hAt h
    refine ih (by rw [Session.settings_next]; exact L) hNext.1 ?_
      fun env c k hDefines => h env c k (.later hDefines)
    rw [Session.globals_next]
    exact L.at_grows hNext.2 hAt

/-- Every machine that a session comes by satisfies the invariant of a lawful discipline that
admits all code. -/
theorem Lawful.inv_of_meets {steps : List Session.Step} (L : D.Lawful s.settings)
    (hCode : ∀ ctx n, D.Code σ ctx n) (hInv : D.Inv s.machine)
    (hAt : D.At s.machine.heap σ s.globals) (hMeets : s.Meets steps x) : D.Inv x :=
  L.toSteady.inv_of_meets hCode hInv hAt (fun env c k _ => L.admits env c k) hMeets

end Discipline

end Tern
