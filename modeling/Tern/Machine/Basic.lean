import Tern.Console
import Tern.Log
import Tern.Machine.Host
import Tern.Value.Display
import Tern.Value.Equality

/-!
# The machine

The state in which programs run, how running can end, and the small steps that evaluation is
made of.

A statement ends in a `Completion`. An expression yields a value or is left by a `Signal`,
which statements turn back into completions where they can. The state survives a signal.

* `Machine` is the state, `Settings` what stays fixed during a run;
* `Eval` is the type of computations;
* `located`, `guarded` and `withCallDepth` are what happens around every expression, every
  statement and every call.
-/

namespace Tern

/-! ## Settings -/

/-- How deep calls may nest unless something else is asked for. -/
def defaultCallDepth : Nat := 256

/-- How deep calls may nest at most. -/
def maxCallDepthLimit : Nat := 1000

/-- What stays fixed during a run: how deep calls may nest, how deep the evaluation itself may
go, the logger, the host, and the number of steps after which a run is given up. -/
structure Settings where
  maxCallDepth : Nat
  stackLimit : Option Nat
  logger : Logger
  host : Host
  fuel : Nat

namespace Settings

/-- Whether there is no room for one more level. -/
def isFull (cfg : Settings) (depth : Nat) : Bool :=
  match cfg.stackLimit with
  | some limit => limit ≤ depth
  | none => false

/-- The levels that are left. -/
def room (cfg : Settings) (depth : Nat) : Option Nat :=
  cfg.stackLimit.map (· - depth)

end Settings

/-! ## State -/

/-- The state of a run. -/
structure Machine where
  heap : Heap
  console : Console
  log : Array String
  callDepth : Nat
  executed : Nat

/-! ## Ends -/

/-- A value on its way out, with the error and the place it came from. -/
structure Thrown where
  value : Value
  error : Option RuntimeError
  span : Option Span

/-- How a statement ends. -/
inductive Completion where
  | normal
  | breakLoop
  | continueLoop
  | ret (value : Value)
  | throw (thrown : Thrown)

/-- What leaves an expression: a fault, a thrown value that crosses a call, a lack of room in
the host, a failure of the host, or the end of the steps allowed. -/
inductive Signal where
  | fault (error : RuntimeError)
  | thrown (thrown : Thrown)
  | overflow (message : String)
  | failure (message : String)
  | exhausted

/-- The message of a lack of room in the host. -/
def overflowMessage : String := "Maximum call stack size exceeded"

namespace Signal

/-- Gives a fault its place. -/
def locate (span : Option Span) : Signal → Signal
  | fault e => fault (e.attach span)
  | other => other

/-- The thrown value of an error: its message. -/
def thrownBy (e : RuntimeError) : Thrown :=
  ⟨.string e.message, some e, e.span⟩

/-- The throw that a statement at a place makes of a signal. Failures of the host pass. -/
def toThrown? (span : Option Span) : Signal → Option Thrown
  | thrown t => some t
  | fault e => some (thrownBy (e.attach span))
  | overflow _ => some (thrownBy ⟨.hostStack, span⟩)
  | failure _ => none
  | exhausted => none

end Signal

/-! ## Computations -/

/-- A computation on the machine. -/
abbrev Eval (α : Type) := EStateM Signal Machine α

namespace Eval

variable {α : Type}

/-- Leaves with a fault that has no place yet. -/
def fault (f : Fault) : Eval α := throw (.fault ⟨f, none⟩)

/-- Leaves for lack of room. -/
def overflow : Eval α := throw (.overflow overflowMessage)

/-- A look at the heap. -/
def heap : Eval Heap := do
  let m ← get
  pure m.heap

/-- An addition to the heap. -/
@[inline] def alloc (f : Heap → α × Heap) : Eval α :=
  modifyGet fun m =>
    let (a, h) := f m.heap
    (a, { m with heap := h })

/-- A change of the heap. -/
@[inline] def update (f : Heap → Heap) : Eval Unit :=
  modify fun m => { m with heap := f m.heap }

/-- What can be told from the heap, or a fault. -/
@[inline] def consult (f : Heap → Except Fault α) : Eval α := fun m =>
  match f m.heap with
  | .ok a => .ok a m
  | .error e => .error (.fault ⟨e, none⟩) m

/-- Has the console do something. Where that fails, the host has failed. -/
@[inline] def onConsole (f : Console → Except String α × Console) : Eval α := fun m =>
  match f m.console with
  | (.ok a, c) => .ok a { m with console := c }
  | (.error message, c) => .error (.failure message) { m with console := c }

/-- Writes to the console. -/
def write (text : String) : Eval Unit := onConsole (·.write text)

/-- Reads a line of input, if one is left. -/
def readLine : Eval (Option String) := onConsole (·.readLine)

/-- Writes a debug message. -/
def debug (cfg : Settings) (message : String) : Eval Unit :=
  modify fun m => { m with log := m.log ++ (cfg.logger.lines .debug message).toArray }

/-- The value of a computed number. -/
def number (x : Float) : Eval Value := alloc (·.newNumber x)

/-- The text of a value. -/
def display (cfg : Settings) (depth : Nat) (v : Value) : Eval String := do
  match (← heap).display? (cfg.room depth) v with
  | some s => pure s
  | none => overflow

/-- Whether two values are equal. -/
def equal (cfg : Settings) (depth : Nat) (a b : Value) : Eval Bool := do
  match (← heap).equal? (cfg.room depth) a b with
  | some r => pure r
  | none => overflow

/-- The value of a name. -/
def lookup (env : Env) (name : String) : Eval Value :=
  consult (·.get env name)

/-- Declares a name. -/
def declare (env : Env) (name : String) (v : Value) (constant : Bool) : Eval Unit := do
  consult (·.checkDeclare env name)
  update (·.bind env.current name ⟨v, constant⟩)

/-- Gives a name a new value. -/
def assign (env : Env) (name : String) (v : Value) : Eval Unit := do
  let s ← consult (·.assignTarget env name)
  update (·.bind s name ⟨v, false⟩)

/-- Enters a new scope with the given names. -/
def enter (env : Env) (names : Scope) : Eval Env := do
  let s ← alloc (·.newScope names)
  pure (env.extend s)

/-- Gives the faults of a computation their place. -/
@[inline] def located (span : Option Span) (x : Eval α) : Eval α := fun m =>
  match x m with
  | .ok a m => .ok a m
  | .error s m => .error (s.locate span) m

/-- Turns what leaves a statement into a completion, where that can be done. -/
@[inline] def guarded (span : Option Span) (x : Eval Completion) : Eval Completion := fun m =>
  match x m with
  | .ok c m => .ok c m
  | .error s m =>
    match s.toThrown? span with
    | some t => .ok (.throw t) m
    | none => .error s m

/-- Runs a computation one call deeper. -/
@[inline] def withCallDepth (x : Eval α) : Eval α := fun m =>
  match x { m with callDepth := m.callDepth + 1 } with
  | .ok a m => .ok a { m with callDepth := m.callDepth - 1 }
  | .error s m => .error s { m with callDepth := m.callDepth - 1 }

end Eval

end Tern
