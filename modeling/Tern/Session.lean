import Tern.Diagnostic
import Tern.Machine.Program

/-!
# Sessions

A session keeps its machine and its global scope from one run to the next, so what one run
defines the next one sees. Several sessions can work on one heap, and even on one global scope;
each has its own console, log, limits and counts.

* `Session.create` opens a session on a heap;
* `Session.run` runs a source, `Session.runProgram` a program.
-/

namespace Tern

/-- The number of steps after which a run is given up. -/
def defaultFuel : Nat := Nat.pow 10 18

/-- The call depth that a number asks for: it must be whole and positive. -/
def callDepthOf (x : Float) : Except Failure Nat :=
  match Number.toInt? x with
  | some (Int.ofNat (n + 1)) => .ok (min (n + 1) maxCallDepthLimit)
  | _ =>
    .error (.range ("maxCallDepth must be a positive integer (got " ++ Number.text x ++ ")"))

/-- A session: what is fixed, when the host calls a halt, the global scope and the state. -/
structure Session where
  settings : Settings
  halt : Nat → Bool
  globals : Env
  machine : Machine

/-- The result of a run. -/
inductive RunResult where
  | ok (value : Value)
  | failed (diagnostic : Diagnostic)

namespace Session

/-- What a session is opened with. How deep evaluation may stand in itself is up to the host. -/
structure Options where
  maxCallDepth : Nat
  stackLimit : Option Nat
  logger : Logger
  host : Host
  console : Console
  halt : Nat → Bool

/-- The global scope of native functions. -/
def globalScope (natives : List Native) : Scope :=
  Table.ofList (natives.map fun f => (f.name, ⟨.native f, false⟩))

/-- A session on a global scope that is there already. -/
def attach (opts : Options) (heap : Heap) (globals : Env) : Session where
  settings :=
    { maxCallDepth := opts.maxCallDepth
      stackLimit := opts.stackLimit
      logger := opts.logger
      host := opts.host
      fuel := defaultFuel }
  halt := opts.halt
  globals := globals
  machine :=
    { heap := heap
      console := opts.console
      log := #[]
      callDepth := 0
      executed := 0 }

/-- A session on a global scope of its own, which holds native functions. -/
def create (opts : Options) (heap : Heap) (natives : List Native) : Session :=
  let (scope, heap) := heap.newScope (globalScope natives)
  attach opts heap ⟨scope, []⟩

/-- Does a computation on the machine of a session. -/
def perform {α : Type} (s : Session) (x : Eval α) : Except Signal α × Session :=
  match x s.machine with
  | .ok a m => (.ok a, { s with machine := m })
  | .error e m => (.error e, { s with machine := m })

/-- Reports a failure and notes it in the log. -/
def fail (cfg : Settings) (f : Failure) (path : Option String) : Eval RunResult := do
  let d := Diagnostic.ofFailure f path
  Eval.debug cfg (d.phase.text ++ " failure: " ++ d.kind)
  pure (.failed d)

/-- Runs a program in an environment and reports how it ended. -/
def runIn (s : Session) (env : Env) (p : Program) (path : Option String) : Eval RunResult := do
  let cfg := s.settings
  let source := match nonempty path with
    | some path => " from " ++ path
    | none => ""
  Eval.debug cfg
    ("executing " ++ toString p.body.length ++ " top-level statement(s)" ++ source)
  match ← interpret cfg s.halt env p with
  | .completed v => pure (.ok v)
  | .uncaught t => do
    let text ← Eval.display cfg 0 t.value
    pure (.failed (.ofThrown t text path))
  | .halted n => fail cfg (.halted n) path

/-- Runs a program. What leaves it is a failure of the host. -/
def runProgram (s : Session) (p : Program) (path : Option String) :
    Except Signal RunResult × Session :=
  s.perform (s.runIn s.globals p path)

/-- Runs a source. -/
def run (s : Session) (source : String) (path : Option String) :
    Except Signal RunResult × Session :=
  match Program.parse? source with
  | .ok p => s.runProgram p path
  | .error e => s.perform (fail s.settings (.ofSyntax e) path)

/-- Runs a program in a new scope inside the globals. -/
def runScoped (s : Session) (p : Program) : Except Signal Outcome × Session :=
  s.perform do
    let env ← Eval.enter s.globals []
    interpret s.settings s.halt env p

/-- The value of an expression in the globals. -/
def evaluate (s : Session) (e : Expr) : Except Signal Value × Session :=
  s.perform (Tern.evaluate s.settings s.settings.fuel 0 s.globals e)

/-- The text of a value, if there is room to make it. -/
def display? (s : Session) (v : Value) : Option String :=
  s.machine.heap.display? (s.settings.room 0) v

/-- The lines printed so far. -/
def outputLines (s : Session) : List String :=
  let lines := s.machine.console.output.splitOn "\n"
  if lines.getLast? = some "" then lines.dropLast else lines

end Session

end Tern
