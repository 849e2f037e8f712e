import Tern.Proofs.Machine.Reflection
import Tern.Proofs.Session

/-!
# Spans, paths and logs do not matter

Two programs that are the same up to spans do the same, whatever is logged on the way and whatever
path they are said to come from. Both are compared with a third run, of the bare program from the
bare machine with a logger that is silent: it is what either of them does once spans, paths and the
log are taken away.

* `Machine.bare`, `RunResult.bare`: what is left of machines and results;
* `Session.mirrors_runIn`: a program runs as its bare form does with a silent logger;
* `Session.run_unseen`: spans, paths and loggers make no difference but in locations.
-/

namespace Tern

/-! ## Machines and results without places -/

/-- A function without spans. -/
def Closure.bare (c : Closure) : Closure := { c with definition := c.definition.bare }

/-- A heap without spans. -/
def Heap.bare (h : Heap) : Heap := { h with closures := h.closures.map Closure.bare }

/-- A machine without spans and without its log. -/
def Machine.bare (m : Machine) : Machine := { m with heap := m.heap.bare, log := #[] }

/-- A value on its way out without the places it came from. -/
def Thrown.bare (t : Thrown) : Thrown := ⟨t.value, t.error.map fun e => ⟨e.fault, none⟩, none⟩

/-- What leaves an expression without the places it came from. -/
def Signal.bare : Signal → Signal
  | .fault e => .fault ⟨e.fault, none⟩
  | .thrown t => .thrown t.bare
  | s => s

/-- The end of a program without places. -/
def Outcome.bare : Outcome → Outcome
  | .uncaught t => .uncaught t.bare
  | o => o

/-- A report without its location. -/
def Diagnostic.bare (d : Diagnostic) : Diagnostic := { d with location := none }

/-- The result of a run without locations. -/
def RunResult.bare : RunResult → RunResult
  | .ok v => .ok v
  | .failed d => .failed d.bare

/-- A logger that writes nothing. -/
def Logger.silent : Logger := ⟨"", .none⟩

/-- Spans and the log are taken away. -/
def Disguise.plain : Disguise where
  span _ := none
  log _ := #[]
  count := id
  unplaced := rfl
  settled _ _ := rfl

namespace Disguise

theorem suits_plain (cfg : Settings) : plain.Suits cfg .silent := fun _ _ => rfl

theorem closure_plain (c : Closure) : plain.closure c = c.bare :=
  congrArg (fun f => { c with definition := f }) (FuncDef.respan_none c.definition)

theorem heap_plain (h : Heap) : plain.heap h = h.bare := by
  unfold heap Heap.bare
  rw [funext closure_plain]

theorem machine_plain (m : Machine) : plain.machine m = m.bare := by
  unfold machine Machine.bare
  rw [heap_plain]
  rfl

theorem signal_plain (s : Signal) : plain.signal s = s.bare := by
  cases s <;> rfl

theorem outcome_plain (o : Outcome) : plain.outcome o = o.bare := by
  cases o <;> rfl

/-- Two ends of computations with results that are the same, from and to machines that are the same
up to spans and logs. -/
def SameEnds {α : Type} (Same : α → α → Prop) :
    EStateM.Result Signal Machine α → EStateM.Result Signal Machine α → Prop
  | .ok a m, .ok a' m' => Same a a' ∧ m'.bare = m.bare
  | .error e m, .error e' m' => e'.bare = e.bare ∧ m'.bare = m.bare
  | _, _ => False

/-- Two computations with a common mirror have the same ends. -/
theorem sameEnds_of_mirrors {α β : Type} {x x' : Eval α} {y : Eval β} {r : α → β}
    {Same : α → α → Prop} (h : plain.Mirrors x y r) (h' : plain.Mirrors x' y r)
    (hSame : ∀ a a', r a' = r a → Same a a') {m m' : Machine} (hMachine : m'.bare = m.bare) :
    SameEnds Same (x m) (x' m') := by
  have hEnd : plain.result r (x' m') = plain.result r (x m) := by
    rw [← h m, ← h' m', machine_plain, machine_plain, hMachine]
  cases hx : x m with
  | ok a k =>
    cases hx' : x' m' with
    | ok a' k' =>
      rw [hx, hx'] at hEnd
      obtain ⟨hResult, hLeft⟩ := EStateM.Result.ok.inj hEnd
      rw [machine_plain, machine_plain] at hLeft
      exact ⟨hSame a a' hResult, hLeft⟩
    | error e' k' =>
      rw [hx, hx'] at hEnd
      cases hEnd
  | error e k =>
    cases hx' : x' m' with
    | ok a' k' =>
      rw [hx, hx'] at hEnd
      cases hEnd
    | error e' k' =>
      rw [hx, hx'] at hEnd
      obtain ⟨hSignal, hLeft⟩ := EStateM.Result.error.inj hEnd
      rw [machine_plain, machine_plain] at hLeft
      rw [signal_plain, signal_plain] at hSignal
      exact ⟨hSignal, hLeft⟩

end Disguise

/-! ## Sessions -/

namespace Session

open Disguise

/-- The settings of a session with a logger that writes nothing. -/
def silenced (s : Session) : Session := { s with settings := s.settings.withLogger .silent }

/-- Whatever is logged, a silent logger leaves what is left of the log. -/
theorem mirrors_debug_silent (cfg : Settings) (message message' : String) :
    plain.Mirrors (Eval.debug cfg message) (Eval.debug (cfg.withLogger .silent) message') id :=
  fun _ => rfl

theorem mirrors_halted (cfg : Settings) (n : Nat) (path : Option String) :
    plain.Mirrors (fail cfg (.halted n) path) (fail (cfg.withLogger .silent) (.halted n) none)
      RunResult.bare :=
  mirrors_bind (mirrors_debug_silent _ _ _) fun _ => mirrors_pure rfl

theorem bare_ofThrown (t : Thrown) (text : String) (path : Option String) :
    Diagnostic.ofThrown t.bare text none = (Diagnostic.ofThrown t text path).bare := by
  obtain ⟨value, error, span⟩ := t
  cases error <;> rfl

/-- A program runs as its bare form does, with a silent logger and from nowhere. -/
theorem mirrors_runIn (s : Session) (env : Env) (p : Program) (path : Option String) :
    plain.Mirrors (s.runIn env p path) (s.silenced.runIn env p.bare none) RunResult.bare := by
  have hRun := mirrors_interpret (suits_plain s.settings) rfl s.halt env p
  have hBare : p.respan plain.span = p.bare := Program.respan_none p
  rw [hBare] at hRun
  refine mirrors_bind (mirrors_debug_silent _ _ _) fun _ => mirrors_bind hRun fun o => ?_
  cases o with
  | completed v => exact mirrors_pure rfl
  | uncaught t =>
    refine mirrors_bind (mirrors_display (suits_plain _) _ _) fun text => mirrors_pure ?_
    exact congrArg RunResult.failed (bare_ofThrown t text path)
  | halted n => exact mirrors_halted s.settings n path

/-- Two sessions that differ in their loggers, in their logs, and in the spans of the functions on
their heaps. -/
structure Alike (s s' : Session) : Prop where
  settings : s'.settings = s.settings.withLogger s'.settings.logger
  halt : s'.halt = s.halt
  globals : s'.globals = s.globals
  machine : s'.machine.bare = s.machine.bare

theorem Alike.silenced {s s' : Session} (h : s.Alike s') :
    s'.silenced.settings = s.silenced.settings := by
  change s'.settings.withLogger .silent = s.settings.withLogger .silent
  rw [h.settings]
  rfl

theorem Alike.mirrors_runIn {s s' : Session} (h : s.Alike s') (env : Env) {p p' : Program}
    (hProgram : p'.bare = p.bare) (path : Option String) :
    plain.Mirrors (s'.runIn env p' path) (s.silenced.runIn env p.bare none) RunResult.bare := by
  have hSilenced : s'.silenced.runIn env p.bare none = s.silenced.runIn env p.bare none := by
    unfold runIn
    rw [h.silenced, show s'.silenced.halt = s.silenced.halt from h.halt]
  rw [← hSilenced, ← hProgram]
  exact Session.mirrors_runIn s' env p' path

/-- The same value, or reports of the same phase and kind with the same message. -/
def SameResult : RunResult → RunResult → Prop
  | .ok v, .ok v' => v' = v
  | .failed d, .failed d' => d'.phase = d.phase ∧ d'.kind = d.kind ∧ d'.message = d.message
  | _, _ => False

theorem sameResult_of_bare (a a' : RunResult) (h : a'.bare = a.bare) : SameResult a a' := by
  cases a with
  | ok v =>
    cases a' with
    | ok v' => exact RunResult.ok.inj h
    | failed d' => cases h
  | failed d =>
    cases a' with
    | ok v' => cases h
    | failed d' =>
      have hBare : d'.bare = d.bare := RunResult.failed.inj h
      obtain ⟨hPhase, hKind, hMessage, -⟩ := Diagnostic.mk.inj hBare
      exact ⟨hPhase, hKind, hMessage⟩

/-- Both runs come to the same result, or the same failure of the host leaves both. -/
def SameRun : Except Signal RunResult → Except Signal RunResult → Prop
  | .ok a, .ok a' => SameResult a a'
  | .error e, .error e' => e'.bare = e.bare
  | _, _ => False

/-- What two computations with the same ends make of sessions that are alike. -/
theorem Alike.perform {s s' : Session} (h : s.Alike s') {x x' : Eval RunResult}
    (hEnds : SameEnds SameResult (x s.machine) (x' s'.machine)) :
    SameRun (s.perform x).1 (s'.perform x').1 ∧ (s.perform x).2.Alike (s'.perform x').2 := by
  unfold Session.perform
  cases hx : x s.machine with
  | ok a m =>
    cases hx' : x' s'.machine with
    | ok a' m' =>
      rw [hx, hx'] at hEnds
      exact ⟨hEnds.1, h.settings, h.halt, h.globals, hEnds.2⟩
    | error e' m' =>
      rw [hx, hx'] at hEnds
      exact hEnds.elim
  | error e m =>
    cases hx' : x' s'.machine with
    | ok a' m' =>
      rw [hx, hx'] at hEnds
      exact hEnds.elim
    | error e' m' =>
      rw [hx, hx'] at hEnds
      exact ⟨hEnds.1, h.settings, h.halt, h.globals, hEnds.2⟩

/-- Spans, paths and logs do not influence runs. Two programs that are the same up to spans run from
machines that are the same up to spans and logs, with any two loggers: they complete with the same
value, or are left with the same uncaught throw, or are halted at the same statement, or the same
failure of the host leaves both, and the machines are still the same up to spans and logs. In
sessions that are alike, and under whatever paths, they come to the same value or to reports that
differ at most in their locations; the sessions are still alike, with the same output, the same
input left to read, the same call depth and the same number of statements. -/
theorem run_unseen :
    (∀ (cfg : Settings) (l : Logger) (halt : Nat → Bool) (env : Env) (p p' : Program)
      (m m' : Machine), p'.bare = p.bare → m'.bare = m.bare →
      SameEnds (fun o o' => o'.bare = o.bare) (interpret cfg halt env p m)
        (interpret (cfg.withLogger l) halt env p' m')) ∧
    ∀ (s s' : Session) (p p' : Program) (path path' : Option String), s.Alike s' →
      p'.bare = p.bare →
      SameRun (s.runProgram p path).1 (s'.runProgram p' path').1 ∧
      (s.runProgram p path).2.Alike (s'.runProgram p' path').2 ∧
      (s'.runProgram p' path').2.machine.console = (s.runProgram p path).2.machine.console ∧
      (s'.runProgram p' path').2.machine.callDepth = (s.runProgram p path).2.machine.callDepth ∧
      (s'.runProgram p' path').2.machine.executed = (s.runProgram p path).2.machine.executed := by
  refine ⟨fun cfg l halt env p p' m m' hProgram hMachine => ?_,
    fun s s' p p' path path' hAlike hProgram => ?_⟩
  · have hBare : ∀ q : Program, q.respan plain.span = q.bare := Program.respan_none
    have hRun := mirrors_interpret (suits_plain cfg) rfl halt env p
    have hRun' := mirrors_interpret (suits_plain (cfg.withLogger l)) rfl halt env p'
    rw [hBare] at hRun
    rw [hBare, hProgram] at hRun'
    refine sameEnds_of_mirrors hRun hRun' (fun o o' ho => ?_) hMachine
    rwa [outcome_plain, outcome_plain] at ho
  · have hEnds : SameEnds SameResult (s.runIn s.globals p path s.machine)
        (s'.runIn s'.globals p' path' s'.machine) := by
      rw [hAlike.globals]
      exact sameEnds_of_mirrors (mirrors_runIn s s.globals p path)
        (hAlike.mirrors_runIn s.globals hProgram path') sameResult_of_bare hAlike.machine
    obtain ⟨hSame, hAfter⟩ := hAlike.perform hEnds
    obtain ⟨-, hConsole, -, hDepth, hExecuted⟩ := Machine.mk.inj hAfter.machine
    exact ⟨hSame, hAfter, hConsole, hDepth, hExecuted⟩

/-- A fresh session that logs debug messages. -/
def noisy : Session :=
  { standard with settings := standard.settings.withLogger (.named "host" true) }

theorem alike_noisy : standard.Alike noisy := ⟨rfl, rfl, rfl, rfl⟩

/-- A program that throws null from a place. -/
def throwing (span : Option Span) : Program := ⟨[.throw (.null none) span], none⟩

/-- An uncaught throw with a span, in a quiet session and from a file, and without one, in a session
that logs debug messages. -/
theorem run_unseen_throw :
    SameEnds (fun o o' => o'.bare = o.bare)
      (interpret standard.settings standard.halt standard.globals
        (throwing (some ⟨⟨1, 1⟩, ⟨1, 12⟩⟩)) standard.machine)
      (interpret (standard.settings.withLogger (.named "host" true)) standard.halt
        standard.globals (throwing none) noisy.machine) ∧
    SameRun (standard.runProgram (throwing (some ⟨⟨1, 1⟩, ⟨1, 12⟩⟩)) (some "a.tern")).1
      (noisy.runProgram (throwing none) none).1 := by
  have hProgram : (throwing none).bare = (throwing (some ⟨⟨1, 1⟩, ⟨1, 12⟩⟩)).bare := rfl
  refine ⟨?_, ?_⟩
  · exact run_unseen.1 standard.settings (.named "host" true) standard.halt standard.globals _ _ _ _
      hProgram alike_noisy.machine
  · exact (run_unseen.2 standard noisy _ _ (some "a.tern") none alike_noisy hProgram).1

end Session

end Tern
