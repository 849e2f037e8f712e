import Tern.Session
import Tern.Proofs.Machine.Moment

/-!
# What sessions keep

The steps of a session are runs of sources and of programs, in the globals or in a scope of
their own, and single expressions. A session that was reached by such steps satisfies whatever a
discipline promises of machines, as long as the discipline admits the code at the top level.

* `Session.Reached`: the sessions that come out of a session step by step;
* `Session.Passes`: the moments of running a program in a session;
* `Discipline.Lawful.next_of_reached`: a discipline lasts over the steps of a session.
-/

namespace Tern

/-- A stretch of the first line, from one column to another. -/
def Span.columns (start stop : Nat) : Option Span := some ⟨⟨1, start⟩, ⟨1, stop⟩⟩

/-- The steps allowed are enough for any number that is no larger. -/
theorem exists_fuel {n : Nat} (h : n ≤ defaultFuel) : ∃ k, defaultFuel = k + n :=
  ⟨defaultFuel - n, (Nat.sub_add_cancel h).symm⟩

namespace Session

/-- A host that has nothing to add, with a console that has nothing to read. -/
def Options.standard : Options :=
  ⟨defaultCallDepth, some 10000, .named "tern" false, fun _ _ => .reply (.value .null),
    .ofLines [], fun _ => false⟩

theorem Options.honest_standard : Options.standard.host.Honest :=
  fun _ _ => .inr (.inl trivial)

/-- A session with the standard functions on a heap of its own. -/
def standard : Session := create .standard .empty Native.standard

/-- The sessions that come out of `start` by steps with `Fine` code. -/
inductive Reached (Fine : Node → Prop) (start : Session) : Session → Prop where
  | start : Reached Fine start start
  | run {s : Session} (before : Reached Fine start s) (source : String) (path : Option String)
      (fine : ∀ p, Program.parse? source = .ok p → Fine (.program p)) :
      Reached Fine start (s.run source path).2
  | runProgram {s : Session} (before : Reached Fine start s) (p : Program)
      (path : Option String) (fine : Fine (.program p)) :
      Reached Fine start (s.runProgram p path).2
  | runScoped {s : Session} (before : Reached Fine start s) (p : Program)
      (fine : Fine (.program p)) : Reached Fine start (s.runScoped p).2
  | evaluate {s : Session} (before : Reached Fine start s) (e : Expr) (fine : Fine (.expr e)) :
      Reached Fine start (s.evaluate e).2

/-- The moments of running a program in a session, in the globals or in a scope of its own. The
lines that are logged before the run do not matter. -/
inductive Passes (s : Session) (p : Program) (t : Task) (m : Machine) : Prop where
  | run (log : Array String)
      (passes : Tern.Passes s.settings s.halt s.globals p { s.machine with log := log } t m)
  | runScoped (env : Env) (m₀ : Machine)
      (enters : Eval.enter s.globals [] s.machine = .ok env m₀)
      (passes : Tern.Passes s.settings s.halt env p m₀ t m)

/-- The machine of a session that has noted the start of a run in its log. -/
def noted (s : Session) (p : Program) (path : Option String) : Machine :=
  let source := match nonempty path with
    | some path => " from " ++ path
    | none => ""
  (Eval.debug s.settings
    ("executing " ++ toString p.body.length ++ " top-level statement(s)" ++ source)).final s.machine

/-- What a session reports about the end of a program. -/
def reportOn (s : Session) (path : Option String) : Outcome → Eval RunResult
  | .completed v => pure (.ok v)
  | .uncaught t => do
    let text ← Eval.display s.settings 0 t.value
    pure (.failed (.ofThrown t text path))
  | .halted n => fail s.settings (.halted n) path

theorem runIn_eq (s : Session) (p : Program) (path : Option String) :
    s.runIn s.globals p path s.machine =
      EStateM.bind (interpret s.settings s.halt s.globals p) (s.reportOn path)
        (s.noted p path) := by
  rfl

variable {α : Type}

theorem machine_perform (s : Session) (x : Eval α) :
    (s.perform x).2.machine = x.final s.machine := by
  unfold perform Eval.final
  cases x s.machine with
  | ok a m => rfl
  | error e m => rfl

theorem settings_perform (s : Session) (x : Eval α) :
    (s.perform x).2.settings = s.settings := by
  unfold perform
  split <;> rfl

theorem settings_run (s : Session) (source : String) (path : Option String) :
    (s.run source path).2.settings = s.settings := by
  unfold run
  split
  · exact settings_perform s _
  · exact settings_perform s _

/-- The settings of a session never change. -/
theorem Reached.settings_eq {Fine : Node → Prop} {start s : Session} (h : Reached Fine start s) :
    s.settings = start.settings := by
  induction h with
  | start => rfl
  | run _ source path _ ih => rw [settings_run, ih]
  | runProgram _ p path _ ih => exact (settings_perform _ _).trans ih
  | runScoped _ p _ ih => exact (settings_perform _ _).trans ih
  | evaluate _ e _ ih => exact (settings_perform _ _).trans ih

end Session

namespace Discipline

variable {D : Discipline} {Fine : Node → Prop} {s start : Session}

/-- The code is admitted at the top level, whatever the environment. -/
def TopLevel (D : Discipline) (n : Node) : Prop :=
  ∃ σ ctx, D.Code σ ctx n ∧ ∀ h env, D.At h σ env

theorem Steady.code_program {cfg : Settings} (L : D.Steady cfg) {σ : D.Site} {ctx : Context}
    {p : Program} (hCode : D.Code σ ctx (.program p)) : ∀ s ∈ p.body, D.Code σ ctx (.stmt s) := by
  intro s hs
  have hPart : (ctx, Node.stmt s) ∈ Node.ownParts ctx (.program p) :=
    List.mem_map_of_mem (List.mem_map_of_mem hs)
  exact L.code_part hCode hPart

theorem Steady.next_fail (L : D.Steady s.settings) (hInv : D.Inv s.machine) (f : Failure)
    (path : Option String) :
    D.Next s.machine ((s.perform (Session.fail s.settings f path)).2.machine) := by
  rw [Session.machine_perform]
  have hFail : D.Holds s.machine s.machine (Session.fail s.settings f path) fun _ _ => True := by
    refine twin_bind (L.holds_debug hInv _) ?_
    exact fun _ m₁ hm₁ _ => twin_pure hm₁ trivial
  exact hFail.next

section

variable (L : D.Lawful s.settings) (hInv : D.Inv s.machine)
include L hInv

theorem Lawful.next_runProgram {p : Program} (path : Option String)
    (hTop : D.TopLevel (.program p)) : D.Next s.machine (s.runProgram p path).2.machine := by
  obtain ⟨σ, ctx, hCode, hAt⟩ := hTop
  unfold Session.runProgram
  rw [Session.machine_perform]
  have hRun : D.Holds s.machine s.machine (s.runIn s.globals p path) fun _ _ => True := by
    refine L.twin_seq (L.holds_debug hInv _) fun _ m₁ hm₁ _ => ?_
    refine L.twin_seq (L.holds_interpretFrom (fun h => hAt h _) hm₁.1 (L.code_program hCode)) ?_
    intro outcome m₂ hm₂ _
    cases outcome with
    | completed v => exact twin_pure (L.here hm₂.1) trivial
    | uncaught t =>
      refine twin_bind (holds_display (L.here hm₂.1) _ _) ?_
      rintro text m' hHere rfl
      exact twin_pure hHere trivial
    | halted n =>
      refine twin_bind (L.holds_debug hm₂.1 _) ?_
      exact fun _ m₃ hm₃ _ => twin_pure hm₃ trivial
  exact hRun.next

theorem Lawful.next_sessionRun {source : String} (path : Option String)
    (hTop : ∀ p, Program.parse? source = .ok p → D.TopLevel (.program p)) :
    D.Next s.machine (s.run source path).2.machine := by
  unfold Session.run
  split
  · next p hParse => exact L.next_runProgram hInv path (hTop p hParse)
  · exact L.next_fail hInv _ path

theorem Lawful.next_runScoped {p : Program} (hTop : D.TopLevel (.program p)) :
    D.Next s.machine (s.runScoped p).2.machine := by
  obtain ⟨σ, ctx, hCode, hAt⟩ := hTop
  unfold Session.runScoped
  rw [Session.machine_perform]
  have hRun : D.Holds s.machine s.machine (do
      let env ← Eval.enter s.globals []
      interpret s.settings s.halt env p) fun _ _ => True := by
    refine L.twin_seq (L.holds_enterBlock (L.here hInv) ctx (hAt _ _)) fun env m₁ hm₁ _ => ?_
    exact L.holds_interpretFrom (fun h => hAt h _) hm₁.1 (L.code_program hCode)
  exact hRun.next

theorem Lawful.next_sessionEvaluate {e : Expr} (hTop : D.TopLevel (.expr e)) :
    D.Next s.machine (s.evaluate e).2.machine := by
  obtain ⟨σ, ctx, hCode, hAt⟩ := hTop
  unfold Session.evaluate
  rw [Session.machine_perform]
  exact L.next_run _ hInv ⟨σ, ctx, hAt _ _, hCode⟩

end

/-- A discipline lasts over the steps of a session. -/
theorem Lawful.next_of_reached (L : D.Lawful start.settings)
    (hTop : ∀ n, Fine n → D.TopLevel n) (hInv : D.Inv start.machine)
    (hReached : start.Reached Fine s) : D.Next start.machine s.machine := by
  have hStep : ∀ s m', start.Reached Fine s → D.Next start.machine s.machine →
      (D.Lawful s.settings → D.Next s.machine m') → D.Next start.machine m' := by
    intro s m' hReached hBefore hNext
    have hHere := hNext (hReached.settings_eq ▸ L)
    exact ⟨hHere.1, L.trans hBefore.2 hHere.2⟩
  induction hReached with
  | start => exact L.here hInv
  | run before source path fine ih =>
    exact hStep _ _ before ih fun L => L.next_sessionRun ih.1 path fun p hp => hTop _ (fine p hp)
  | runProgram before p path fine ih =>
    exact hStep _ _ before ih fun L => L.next_runProgram ih.1 path (hTop _ fine)
  | runScoped before p fine ih =>
    exact hStep _ _ before ih fun L => L.next_runScoped ih.1 (hTop _ fine)
  | evaluate before e fine ih =>
    exact hStep _ _ before ih fun L => L.next_sessionEvaluate ih.1 (hTop _ fine)

/-- A discipline admits every moment of a program that runs in a session it is kept in. -/
theorem Lawful.fits_of_sessionPasses (L : D.Lawful s.settings) (hInv : D.Inv s.machine)
    {p : Program} (hTop : D.TopLevel (.program p)) {t : Task} {m : Machine}
    (hPasses : s.Passes p t m) : D.Inv m ∧ D.Fits m.heap t := by
  obtain ⟨σ, ctx, hCode, hAt⟩ := hTop
  cases hPasses with
  | run log passes =>
    have hLogged : D.Next s.machine { s.machine with log := log } :=
      L.quiet hInv rfl rfl (.refl s.machine.console)
    exact L.fits_of_passes (fun h => hAt h _) hLogged.1 (L.code_program hCode) passes
  | runScoped env m₀ enters passes =>
    have hEntered := (L.holds_enterBlock (L.here hInv) ctx (hAt _ _)).ok enters
    exact L.fits_of_passes (fun h => hAt h _) hEntered.1.1 (L.code_program hCode) passes

end Discipline

end Tern
