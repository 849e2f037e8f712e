import Tern.Machine.Evaluate

/-!
# Running programs

The statements of a program run one after another at the top level. Between them the host may
call a halt. The result is the value of the last statement if that is an expression, and null
otherwise.

* `interpret` runs a program's statements.
-/

namespace Tern

/-- How a program ends. -/
inductive Outcome where
  | completed (value : Value)
  | uncaught (thrown : Thrown)
  | halted (executed : Nat)

open Eval

/-- A statement at the top level: its completion, and its value if it is an expression. -/
def executeTop (cfg : Settings) (env : Env) : Stmt → Eval (Completion × Value)
  | .simple (.expr e span) => fun m =>
    match evaluate cfg cfg.fuel 0 env e m with
    | .ok v m => .ok (.normal, v) m
    | .error s m =>
      match s.toThrown? span with
      | some t => .ok (.throw t, .null) m
      | none => .error s m
  | s => do
    let c ← execute cfg cfg.fuel 0 env s
    pure (c, .null)

/-- Runs statements; `value` is the result so far. -/
def interpretFrom (cfg : Settings) (halt : Nat → Bool) (env : Env) :
    Value → List Stmt → Eval Outcome
  | value, [] => pure (.completed value)
  | _, s :: rest => do
    let m ← get
    if halt m.executed then pure (.halted m.executed)
    else
      let (c, value) ← executeTop cfg env s
      modify fun m => { m with executed := m.executed + 1 }
      match c with
      | .normal => interpretFrom cfg halt env value rest
      | .throw t => do
        let text ← display cfg 0 t.value
        debug cfg ("uncaught throw at top level: " ++ text)
        pure (.uncaught t)
      | .ret v => pure (.completed v)
      | _ => pure (.completed value)

/-- Runs the statements of a program. -/
def interpret (cfg : Settings) (halt : Nat → Bool) (env : Env) (p : Program) : Eval Outcome :=
  interpretFrom cfg halt env .null p.body

end Tern
