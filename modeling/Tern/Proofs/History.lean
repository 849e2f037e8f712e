import Tern.Proofs.Machine.Course
import Tern.Proofs.Session

/-!
# The history of a session

A session goes from step to step, each step runs statements, and each statement comes by machines
of its own. Here all of them are put in one order, over the whole life of a session.

* `Session.Step`, `Session.next`: the steps of a session;
* `Session.Meets`: the machines that a session comes by in a row of steps;
* `Session.Earlier`: the order in which it does;
* `Discipline.Lawful.grows_of_earlier`: a discipline is kept from each machine to every later one.
-/

namespace Tern

/-! ## Programs -/

section

variable (cfg : Settings) (halt : Nat → Bool) (env : Env)

/-- The run of the statements from `m` comes by the machine. -/
inductive ComesAmong : List Stmt → Machine → Machine → Prop where
  | start {body : List Stmt} {m : Machine} : ComesAmong body m m
  | inside {s : Stmt} {rest : List Stmt} {m x : Machine} (goesOn : halt m.executed = false)
      (comes : Comes cfg cfg.fuel (s.topTask env) m x) : ComesAmong (s :: rest) m x
  | later {s : Stmt} {rest : List Stmt} {m m₁ x : Machine} {v : Value}
      (goesOn : halt m.executed = false) (ends : executeTop cfg env s m = .ok (.normal, v) m₁)
      (comes : ComesAmong rest { m₁ with executed := m₁.executed + 1 } x) :
      ComesAmong (s :: rest) m x

/-- The run of the statements comes by the first machine no later than by the second. -/
inductive BeforeAmong : List Stmt → Machine → Machine → Machine → Prop where
  | start {body : List Stmt} {m y : Machine} (comes : ComesAmong cfg halt env body m y) :
      BeforeAmong body m m y
  | inside {s : Stmt} {rest : List Stmt} {m x y : Machine} (goesOn : halt m.executed = false)
      (before : Before cfg cfg.fuel (s.topTask env) m x y) : BeforeAmong (s :: rest) m x y
  | across {s : Stmt} {rest : List Stmt} {m m₁ x y : Machine} {v : Value}
      (goesOn : halt m.executed = false) (first : Comes cfg cfg.fuel (s.topTask env) m x)
      (ends : executeTop cfg env s m = .ok (.normal, v) m₁)
      (second : ComesAmong cfg halt env rest { m₁ with executed := m₁.executed + 1 } y) :
      BeforeAmong (s :: rest) m x y
  | later {s : Stmt} {rest : List Stmt} {m m₁ x y : Machine} {v : Value}
      (goesOn : halt m.executed = false) (ends : executeTop cfg env s m = .ok (.normal, v) m₁)
      (before : BeforeAmong rest { m₁ with executed := m₁.executed + 1 } x y) :
      BeforeAmong (s :: rest) m x y

end

section

variable {cfg : Settings} {halt : Nat → Bool} {env : Env} {body : List Stmt} {m m₁ x y : Machine}

/-- A statement at the top level leaves behind what its task does. -/
theorem final_executeTop (s : Stmt) :
    (executeTop cfg env s).final m = (run cfg cfg.fuel (s.topTask env)).final m := by
  by_cases hExpr : ∃ e span, s = .simple (.expr e span)
  · obtain ⟨e, span, rfl⟩ := hExpr
    unfold Eval.final executeTop evaluate Stmt.topTask
    dsimp only
    cases run cfg cfg.fuel (.evaluate 0 env e) m with
    | ok v m' => rfl
    | error signal m' => cases hThrown : signal.toThrown? span <;> simp [hThrown]
  · have hOther : ∀ e span, s ≠ .simple (.expr e span) := fun e span h => hExpr ⟨e, span, h⟩
    rw [executeTop_eq hOther, Stmt.topTask_eq hOther, Eval.final_bind]
    rfl

/-- Of two machines that the run of a program comes by, one is before the other. -/
theorem BeforeAmong.total (hx : ComesAmong cfg halt env body m x)
    (hy : ComesAmong cfg halt env body m y) :
    BeforeAmong cfg halt env body m x y ∨ BeforeAmong cfg halt env body m y x := by
  induction hx generalizing y with
  | start => exact .inl (.start hy)
  | inside goesOn comes =>
    cases hy with
    | start => exact .inr (.start (.inside goesOn comes))
    | inside _ comes' => exact (Before.total comes comes').imp (.inside goesOn) (.inside goesOn)
    | later _ ends comes' => exact .inl (.across goesOn comes ends comes')
  | later goesOn ends comes ih =>
    cases hy with
    | start => exact .inr (.start (.later goesOn ends comes))
    | inside _ comes' => exact .inr (.across goesOn comes' ends comes)
    | later _ ends' comes' =>
      cases ends.symm.trans ends'
      exact (ih comes').imp (.later goesOn ends) (.later goesOn ends)

end

/-! ## Steps of a session -/

namespace Session

theorem run_eq {s : Session} {source : String} {p : Program}
    (parses : Program.parse? source = .ok p) (path : Option String) :
    s.run source path = s.runProgram p path := by
  unfold run
  rw [parses]

theorem final_runProgram (s : Session) (p : Program) (path : Option String) :
    (s.runProgram p path).2.machine =
      match interpret s.settings s.halt s.globals p (s.noted p path) with
      | .ok outcome m' => (s.reportOn path outcome).final m'
      | .error _ m' => m' := by
  refine (machine_perform s _).trans ?_
  unfold Eval.final
  rw [runIn_eq]
  unfold EStateM.bind
  cases interpret s.settings s.halt s.globals p (s.noted p path) <;> rfl

/-- What can be done with a session. -/
inductive Step where
  | run (source : String) (path : Option String)
  | runProgram (p : Program) (path : Option String)
  | runScoped (p : Program)
  | evaluate (e : Expr)

/-- The session after a step. -/
def next (s : Session) : Step → Session
  | .run source path => (s.run source path).2
  | .runProgram p path => (s.runProgram p path).2
  | .runScoped p => (s.runScoped p).2
  | .evaluate e => (s.evaluate e).2

/-- In the step, the program runs in the environment from the machine. -/
inductive Opens (s : Session) : Step → Env → Program → Machine → Prop where
  | run {source : String} {path : Option String} {p : Program}
      (parses : Program.parse? source = .ok p) :
      Opens s (.run source path) s.globals p (s.noted p path)
  | runProgram {p : Program} {path : Option String} :
      Opens s (.runProgram p path) s.globals p (s.noted p path)
  | runScoped {p : Program} {env : Env} {m : Machine}
      (enters : Eval.enter s.globals [] s.machine = .ok env m) : Opens s (.runScoped p) env p m

/-- The step comes by the machine. -/
inductive ComesIn (s : Session) : Step → Machine → Prop where
  | program {step : Step} {env : Env} {p : Program} {m x : Machine} (opens : s.Opens step env p m)
      (comes : ComesAmong s.settings s.halt env p.body m x) : ComesIn s step x
  | evaluate {e : Expr} {x : Machine}
      (comes : Comes s.settings s.settings.fuel (.evaluate 0 s.globals e) s.machine x) :
      ComesIn s (.evaluate e) x

/-- The step comes by the first machine no later than by the second. -/
inductive BeforeIn (s : Session) : Step → Machine → Machine → Prop where
  | program {step : Step} {env : Env} {p : Program} {m x y : Machine}
      (opens : s.Opens step env p m)
      (before : BeforeAmong s.settings s.halt env p.body m x y) : BeforeIn s step x y
  | evaluate {e : Expr} {x y : Machine}
      (before : Before s.settings s.settings.fuel (.evaluate 0 s.globals e) s.machine x y) :
      BeforeIn s (.evaluate e) x y

/-- The session comes by the machine in the steps. -/
inductive Meets : Session → List Step → Machine → Prop where
  | here {s : Session} {steps : List Step} : Meets s steps s.machine
  | inside {s : Session} {step : Step} {rest : List Step} {x : Machine}
      (comes : s.ComesIn step x) : Meets s (step :: rest) x
  | later {s : Session} {step : Step} {rest : List Step} {x : Machine}
      (meets : Meets (s.next step) rest x) : Meets s (step :: rest) x

/-- The session comes by the first machine no later than by the second. -/
inductive Earlier : Session → List Step → Machine → Machine → Prop where
  | here {s : Session} {steps : List Step} {y : Machine} (meets : s.Meets steps y) :
      Earlier s steps s.machine y
  | inside {s : Session} {step : Step} {rest : List Step} {x y : Machine}
      (before : s.BeforeIn step x y) : Earlier s (step :: rest) x y
  | across {s : Session} {step : Step} {rest : List Step} {x y : Machine}
      (first : s.ComesIn step x) (second : (s.next step).Meets rest y) :
      Earlier s (step :: rest) x y
  | later {s : Session} {step : Step} {rest : List Step} {x y : Machine}
      (earlier : Earlier (s.next step) rest x y) : Earlier s (step :: rest) x y

variable {s : Session}

theorem settings_next (step : Step) : (s.next step).settings = s.settings := by
  cases step with
  | run source path => exact settings_run s source path
  | runProgram | runScoped | evaluate => exact settings_perform s _

/-- A step opens one run at most. -/
theorem Opens.unique {step : Step} {env env' : Env} {p p' : Program} {m m' : Machine}
    (h : s.Opens step env p m) (h' : s.Opens step env' p' m') : env' = env ∧ p' = p ∧ m' = m := by
  cases h with
  | run parses =>
    cases h' with
    | run parses' =>
      cases parses.symm.trans parses'
      exact ⟨rfl, rfl, rfl⟩
  | runProgram =>
    cases h'
    exact ⟨rfl, rfl, rfl⟩
  | runScoped enters =>
    cases h' with
    | runScoped enters' =>
      cases enters.symm.trans enters'
      exact ⟨rfl, rfl, rfl⟩

theorem BeforeIn.total {step : Step} {x y : Machine} (hx : s.ComesIn step x)
    (hy : s.ComesIn step y) : s.BeforeIn step x y ∨ s.BeforeIn step y x := by
  cases hx with
  | program opens comes =>
    cases hy with
    | program opens' comes' =>
      obtain ⟨rfl, rfl, rfl⟩ := opens.unique opens'
      exact (BeforeAmong.total comes comes').imp (.program opens) (.program opens)
    | evaluate => nomatch opens
  | evaluate comes =>
    cases hy with
    | program opens => nomatch opens
    | evaluate comes' => exact (Before.total comes comes').imp .evaluate .evaluate

/-- Of two machines that a session comes by, one is earlier than the other. -/
theorem Earlier.total {steps : List Step} {x y : Machine} (hx : s.Meets steps x)
    (hy : s.Meets steps y) : s.Earlier steps x y ∨ s.Earlier steps y x := by
  induction hx generalizing y with
  | here => exact .inl (.here hy)
  | inside comes =>
    cases hy with
    | here => exact .inr (.here (.inside comes))
    | inside comes' => exact (BeforeIn.total comes comes').imp .inside .inside
    | later meets => exact .inl (.across comes meets)
  | later meets ih =>
    cases hy with
    | here => exact .inr (.here (.later meets))
    | inside comes => exact .inr (.across comes meets)
    | later meets' => exact (ih meets').imp .later .later

end Session

/-! ## What is kept over a history -/

namespace Discipline

section

variable {Grows : Machine → Machine → Prop} {cfg : Settings} {halt : Nat → Bool} {env : Env}
  {body : List Stmt} {m m₁ x y : Machine} (L : (ofOrder Grows).Lawful cfg)
  (hLevel : (ofOrder Grows).Level)
include L

theorem Lawful.grows_executeTop (s : Stmt) : Grows m ((executeTop cfg env s).final m) := by
  rw [final_executeTop]
  exact L.grows_run _ _ _

theorem Lawful.grows_count (m : Machine) :
    Grows m { m with executed := m.executed + 1 } :=
  (L.next_count trivial).2

theorem Lawful.grows_interpretFrom (value : Value) :
    Grows m ((interpretFrom cfg halt env value body).final m) :=
  have hBody : ∀ s ∈ body, (ofOrder Grows).Code () .top (.stmt s) := fun _ _ => trivial
  (L.holds_interpretFrom (fun _ => trivial) trivial hBody).next.2

theorem Lawful.grows_afterTop (rest : List Stmt) (v : Value) (c : Completion) :
    Grows m ((afterTop cfg halt env rest v c).final m) := by
  have hAfter : (ofOrder Grows).Holds m m (afterTop cfg halt env rest v c) fun _ _ => True := by
    cases c with
    | normal =>
      have hRest : ∀ s ∈ rest, (ofOrder Grows).Code () .top (.stmt s) := fun _ _ => trivial
      exact L.holds_interpretFrom (fun _ => trivial) trivial hRest
    | throw t =>
      refine twin_bind (holds_display (L.here trivial) _ _) ?_
      rintro text m' - rfl
      refine L.twin_seq (L.holds_debug trivial _) fun _ m₂ hm₂ _ => ?_
      exact twin_pure (L.here hm₂.1) trivial
    | ret | breakLoop | continueLoop => exact twin_pure (L.here trivial) trivial
  exact hAfter.next.2

include hLevel

theorem Lawful.grows_comesAmong (h : ComesAmong cfg halt env body m x) : Grows m x := by
  induction h with
  | start => exact L.refl _
  | inside _ comes => exact (L.grows_comes hLevel comes).1
  | later _ ends _ ih =>
    refine L.trans ?_ (L.trans (L.grows_count _) ih)
    rw [← Eval.final_of_ok ends]
    exact L.grows_executeTop _

/-- What is kept by a statement is kept from each of its machines to where the next starts. -/
theorem Lawful.grows_ends {s : Stmt} {v : Value} (comes : Comes cfg cfg.fuel (s.topTask env) m x)
    (ends : executeTop cfg env s m = .ok (.normal, v) m₁) :
    Grows x { m₁ with executed := m₁.executed + 1 } := by
  have hStop := (L.grows_comes hLevel comes).2
  rw [← final_executeTop, Eval.final_of_ok ends] at hStop
  exact L.trans hStop (L.grows_count _)

theorem Lawful.grows_of_beforeAmong (h : BeforeAmong cfg halt env body m x y) : Grows x y := by
  induction h with
  | start comes => exact L.grows_comesAmong hLevel comes
  | inside _ before => exact L.grows_of_before hLevel before
  | across _ first ends second =>
    exact L.trans (L.grows_ends hLevel first ends) (L.grows_comesAmong hLevel second)
  | later _ _ _ ih => exact ih

/-- What is kept by a program is kept from each of its machines to its end. -/
theorem Lawful.grows_interpreted (h : ComesAmong cfg halt env body m x) (value : Value) :
    Grows x ((interpretFrom cfg halt env value body).final m) := by
  induction h generalizing value with
  | start => exact L.grows_interpretFrom value
  | @inside s rest m x goesOn comes =>
    have hEnd := (L.grows_comes hLevel comes).2
    rw [← final_executeTop] at hEnd
    unfold Eval.final at hEnd ⊢
    cases hTop : executeTop cfg env s m with
    | error =>
      rw [interpretFrom_error goesOn hTop]
      rw [hTop] at hEnd
      exact hEnd
    | ok r m₁ =>
      rw [interpretFrom_ok goesOn hTop]
      rw [hTop] at hEnd
      exact L.trans hEnd (L.trans (L.grows_count _) (L.grows_afterTop rest r.2 r.1))
  | later goesOn ends _ ih =>
    unfold Eval.final
    rw [interpretFrom_ok goesOn ends]
    exact ih _

end

/-! ### Sessions -/

section

variable {Grows : Machine → Machine → Prop} {s : Session} {m x y : Machine}
  (L : (ofOrder Grows).Lawful s.settings) (hLevel : (ofOrder Grows).Level)
include L

theorem Lawful.after (step : Session.Step) : (ofOrder Grows).Lawful (s.next step).settings := by
  rw [Session.settings_next]
  exact L

theorem Lawful.grows_next (step : Session.Step) : Grows s.machine (s.next step).machine := by
  cases step with
  | run source path => exact (L.next_sessionRun trivial path fun _ _ => ofOrder_topLevel _).2
  | runProgram p path => exact (L.next_runProgram trivial path (ofOrder_topLevel _)).2
  | runScoped p => exact (L.next_runScoped trivial (ofOrder_topLevel _)).2
  | evaluate e => exact (L.next_sessionEvaluate trivial (ofOrder_topLevel _)).2

theorem Lawful.grows_report (path : Option String) (outcome : Outcome) :
    Grows m ((s.reportOn path outcome).final m) := by
  have hHere : (ofOrder Grows).Next m m := ⟨trivial, L.refl m⟩
  cases outcome with
  | completed v => exact L.refl m
  | uncaught t =>
    have hText : (ofOrder Grows).Holds m m (s.reportOn path (.uncaught t)) fun _ _ => True := by
      refine twin_bind (holds_display hHere _ _) ?_
      rintro text m' hm' -
      exact twin_pure hm' trivial
    exact hText.next.2
  | halted n =>
    have hFail : (ofOrder Grows).Holds m m (s.reportOn path (.halted n)) fun _ _ => True := by
      refine twin_bind (L.holds_debug trivial _) ?_
      exact fun _ m₁ hm₁ _ => twin_pure hm₁ trivial
    exact hFail.next.2

variable {step : Session.Step} {env : Env} {p : Program}

theorem Lawful.grows_opens (h : s.Opens step env p m) : Grows s.machine m := by
  cases h with
  | run | runProgram => exact (L.holds_debug trivial _).next.2
  | runScoped enters =>
    have hEnter := L.holds_enterBlock (L.here trivial) .top (ofOrder_at s.machine.heap s.globals)
    exact (hEnter.ok enters).1.2

include hLevel

/-- What is kept by a program is kept from each of its machines to the end of the step. -/
theorem Lawful.grows_stepped (h : s.Opens step env p m)
    (comes : ComesAmong s.settings s.halt env p.body m x) : Grows x (s.next step).machine := by
  have hEnd := L.grows_interpreted hLevel comes .null
  have hReported : ∀ path, env = s.globals → m = s.noted p path →
      Grows x (s.runProgram p path).2.machine := by
    rintro path rfl rfl
    rw [Session.final_runProgram]
    cases hRun : interpret s.settings s.halt s.globals p (s.noted p path) with
    | error => exact (Eval.final_of_error hRun) ▸ hEnd
    | ok outcome m' =>
      rw [interpret] at hRun
      rw [Eval.final_of_ok hRun] at hEnd
      exact L.trans hEnd (L.grows_report path outcome)
  cases h with
  | @run source path p parses =>
    have hSame : s.next (.run source path) = (s.runProgram p path).2 :=
      congrArg Prod.snd (Session.run_eq parses path)
    rw [hSame]
    exact hReported path rfl rfl
  | runProgram => exact hReported _ rfl rfl
  | @runScoped p env m enters =>
    have hSame : (s.next (.runScoped p)).machine =
        (interpretFrom s.settings s.halt env .null p.body).final m := by
      refine (Session.machine_perform s _).trans ((Eval.final_bind _ _ _).trans ?_)
      rw [enters]
      rfl
    rw [hSame]
    exact hEnd

theorem Lawful.grows_comesIn (h : s.ComesIn step x) :
    Grows s.machine x ∧ Grows x (s.next step).machine := by
  cases h with
  | program opens comes =>
    exact ⟨L.trans (L.grows_opens opens) (L.grows_comesAmong hLevel comes),
      L.grows_stepped hLevel opens comes⟩
  | @evaluate e x comes =>
    have hSame : (s.next (.evaluate e)).machine =
        (run s.settings s.settings.fuel (.evaluate 0 s.globals e)).final s.machine :=
      Session.machine_perform s _
    rw [hSame]
    exact L.grows_comes hLevel comes

theorem Lawful.grows_meets {steps : List Session.Step} (h : s.Meets steps x) :
    Grows s.machine x := by
  induction h with
  | here => exact L.refl _
  | inside comes => exact (L.grows_comesIn hLevel comes).1
  | @later s step rest x _ ih => exact L.trans (L.grows_next step) (ih (L.after step))

/-- What is kept by a session is kept from each of its machines to every later one. -/
theorem Lawful.grows_of_earlier {steps : List Session.Step} (h : s.Earlier steps x y) :
    Grows x y := by
  induction h with
  | here meets => exact L.grows_meets hLevel meets
  | inside before =>
    cases before with
    | program _ before => exact L.grows_of_beforeAmong hLevel before
    | evaluate before => exact L.grows_of_before hLevel before
  | @across s step rest x y first second =>
    exact L.trans (L.grows_comesIn hLevel first).2 (Lawful.grows_meets (L.after step) hLevel second)
  | @later s step rest x y _ ih => exact ih (L.after step)

end

end Discipline

end Tern
