import Tern.Machine.Operation

/-!
# Evaluation

Expressions, statements and calls. Operands are evaluated from left to right; a member that is
called is looked up before the arguments are evaluated.

The work is cut into tasks. What a task does itself is a `step`, which hands its parts to a
`Worker`. Programs need not end, so `run` is given `fuel`: each step into a part, each further
statement and each further round of a loop takes one of it, and a run that uses it up ends in
`Signal.exhausted`. `depth` counts how deep the evaluation stands in itself.

* `step` does a task, given a worker for its parts, and `run` ties the knot;
* `evaluate` yields the value of an expression;
* `execute` yields the completion of a statement.
-/

namespace Tern

namespace Eval

/-- What a call gives back once its body has ended. -/
def callResult (initializer : Bool) : Completion → Eval Value
  | .ret v => pure (if initializer then .null else v)
  | .throw t => throw (.thrown t)
  | _ => pure .null

/-- Leaves unless a function can be called with a number of arguments at this call depth. -/
def checkCall (cfg : Settings) (f : FuncDef) (received : Nat) : Eval Unit := do
  if f.params.length ≠ received then fault (.arity f.id.name f.params.length received)
  else
    let m ← get
    if cfg.maxCallDepth ≤ m.callDepth then fault (.callDepth cfg.maxCallDepth)

end Eval

/-! ## Tasks -/

/-- A piece of work. -/
inductive Task where
  | evaluate (depth : Nat) (env : Env) (e : Expr)
  | evaluateAll (depth : Nat) (env : Env) (es : List Expr)
  | apply (depth : Nat) (callee : Value) (args : List Value)
  | applyFunc (depth : Nat) (id : FuncId) (self : Option ObjectId) (args : List Value)
  | execute (depth : Nat) (env : Env) (s : Stmt)
  | executeSimple (depth : Nat) (env : Env) (s : Simple)
  | executeAll (depth : Nat) (env : Env) (body : List Stmt)
  | executeElifs (depth : Nat) (env : Env) (clauses : List ElifClause) (otherwise : Option Block)
  | runWhile (depth : Nat) (env : Env) (condition : Expr) (body : Block)
  | runFor (depth : Nat) (env : Env) (condition update : Option Expr) (body : Block)

/-- What a task yields. -/
abbrev Task.Result : Task → Type
  | evaluate .. | apply .. | applyFunc .. => Value
  | evaluateAll .. => List Value
  | execute .. | executeSimple .. | executeAll .. | executeElifs .. | runWhile .. | runFor .. =>
    Completion

/-- Something that does tasks. -/
abbrev Worker := (t : Task) → Eval t.Result

open Eval

/-! ## Steps

Each function does one task; `inner` does the parts. -/

namespace Step

variable (cfg : Settings) (inner : Worker)

/-- The value of an expression of a form, which stands at `depth`. -/
def expr (depth : Nat) (env : Env) : Expr → Eval Value
  | .string s _ => pure (.string s)
  | .number x _ => number x
  | .boolean b _ => pure (.bool b)
  | .null _ => pure .null
  | .array es _ => do
    let vs ← inner (.evaluateAll (depth + 1) env es)
    pure (.array (← alloc (·.newArray vs.toArray)))
  | .name id => lookup env id.name
  | .this _ => lookup env "this"
  | .super m _ => superMethod env m.name
  | .unary op e _ => do
    let v ← inner (.evaluate (depth + 1) env e)
    unary op v
  | .binary op l r _ => do
    let a ← inner (.evaluate (depth + 1) env l)
    let b ← inner (.evaluate (depth + 1) env r)
    binary cfg (depth + 1) op a b
  | .logical op l r _ => do
    let a ← inner (.evaluate (depth + 1) env l)
    match op, a.isTruthy with
    | .and, false => pure (.bool false)
    | .or, true => pure (.bool true)
    | _, _ => do
      let b ← inner (.evaluate (depth + 1) env r)
      pure (.bool b.isTruthy)
  | .call (.member o m _) args _ => do
    let object ← inner (.evaluate (depth + 1) env o)
    let callee ← memberForCall object m.name
    let vs ← inner (.evaluateAll (depth + 1) env args)
    inner (.apply (depth + 1) callee vs)
  | .call f args _ => do
    let callee ← inner (.evaluate (depth + 1) env f)
    let vs ← inner (.evaluateAll (depth + 1) env args)
    inner (.apply (depth + 1) callee vs)
  | .member o m _ => do
    let object ← inner (.evaluate (depth + 1) env o)
    readMember object m.name
  | .setMember o m v _ => do
    let object ← inner (.evaluate (depth + 1) env o)
    let id ← memberTarget object m.name
    let value ← inner (.evaluate (depth + 1) env v)
    update (·.setField id m.name value)
    pure value
  | .index o i _ => do
    let object ← inner (.evaluate (depth + 1) env o)
    let index ← inner (.evaluate (depth + 1) env i)
    readIndex object index
  | .setIndex o i v _ => do
    let object ← inner (.evaluate (depth + 1) env o)
    let index ← inner (.evaluate (depth + 1) env i)
    let (id, position) ← indexTarget object index
    let value ← inner (.evaluate (depth + 1) env v)
    update (·.setElement id position value)
    pure value
  | .assign t v _ => do
    let value ← inner (.evaluate (depth + 1) env v)
    assign env t.name value
    pure value

/-- The value of an expression. -/
def evaluate (depth : Nat) (env : Env) (e : Expr) : Eval Value :=
  if cfg.isFull depth then overflow else located e.span (expr cfg inner depth env e)

/-- The values of expressions, from left to right. -/
def evaluateAll (depth : Nat) (env : Env) : List Expr → Eval (List Value)
  | [] => pure []
  | e :: rest => do
    let v ← inner (.evaluate depth env e)
    let vs ← inner (.evaluateAll depth env rest)
    pure (v :: vs)

/-- Calls a value. A native function of the host may call values back. -/
def apply (depth : Nat) (callee : Value) (args : List Value) : Eval Value :=
  match callee with
  | .func id => inner (.applyFunc depth id none args)
  | .bound id self => inner (.applyFunc depth id (some self) args)
  | .native f => callNative cfg (fun v vs => inner (.apply (depth + 1) v vs)) depth f args
  | .cls c => do
    let id ← alloc (·.newObject ⟨c, []⟩)
    match c.findMethod? initializerName with
    | some f =>
      let _ ← inner (.applyFunc depth f (some id) args)
      pure (.object id)
    | none =>
      if args.length = 0 then pure (.object id)
      else fault (.arity c.name 0 args.length)
  | v => fault (.notCallable v.typeName)

/-- Calls a function, as a method if there is an instance. -/
def applyFunc (depth : Nat) (id : FuncId) (self : Option ObjectId) (args : List Value) :
    Eval Value := do
  let closure := (← heap).closure id
  checkCall cfg closure.definition args.length
  let env ← enterCall closure self args
  let c ← withCallDepth (inner (.executeAll depth env closure.definition.body.body))
  callResult closure.initializer c

/-- The completion of a statement of a form, which stands at `depth`. -/
def stmt (depth : Nat) (env : Env) : Stmt → Eval Completion
  | .simple s => inner (.executeSimple (depth + 1) env s)
  | .func f => do
    defineFunc env f
    pure .normal
  | .cls c => do
    defineClass env c
    pure .normal
  | .block b => do
    let env ← enter env []
    inner (.executeAll (depth + 1) env b.body)
  | .ifElse condition body elifs otherwise _ => do
    let v ← inner (.evaluate (depth + 1) env condition)
    if v.isTruthy then
      let env ← enter env []
      inner (.executeAll (depth + 1) env body.body)
    else inner (.executeElifs (depth + 1) env elifs otherwise)
  | .whileLoop condition body _ => inner (.runWhile (depth + 1) env condition body)
  | .forLoop start condition update body _ => do
    let loopEnv ← enter env []
    match start with
    | none => inner (.runFor (depth + 1) loopEnv condition update body)
    | some start =>
      match ← inner (.execute (depth + 1) loopEnv (.simple start)) with
      | .normal => inner (.runFor (depth + 1) loopEnv condition update body)
      | c => pure c
  | .breakLoop _ => pure .breakLoop
  | .continueLoop _ => pure .continueLoop
  | .ret none _ => pure (.ret .null)
  | .ret (some e) _ => do
    let v ← inner (.evaluate (depth + 1) env e)
    pure (.ret v)
  | .tryCatch body param handler _ => do
    let tryEnv ← enter env []
    match ← inner (.executeAll (depth + 1) tryEnv body.body) with
    | .throw t => do
      let text ← display cfg (depth + 1) t.value
      debug cfg ("caught " ++ text ++ " in '" ++ param.name ++ "'")
      let catchEnv ← enter env [(param.name, ⟨t.value, false⟩)]
      inner (.executeAll (depth + 1) catchEnv handler.body)
    | c => pure c
  | .throw e span => do
    let v ← inner (.evaluate (depth + 1) env e)
    pure (.throw ⟨v, none, span⟩)

/-- The completion of a statement. -/
def execute (depth : Nat) (env : Env) (s : Stmt) : Eval Completion :=
  guarded s.span (if cfg.isFull depth then overflow else stmt cfg inner depth env s)

/-- The completion of a simple statement. -/
def executeSimple (depth : Nat) (env : Env) : Simple → Eval Completion
  | .var id none _ => do
    declare env id.name .null false
    pure .normal
  | .var id (some e) _ => do
    let v ← inner (.evaluate depth env e)
    declare env id.name v false
    pure .normal
  | .const id e _ => do
    let v ← inner (.evaluate depth env e)
    declare env id.name v true
    pure .normal
  | .expr e _ => do
    let _ ← inner (.evaluate depth env e)
    pure .normal

/-- Statements one after another, up to the first that does not end normally. -/
def executeAll (depth : Nat) (env : Env) : List Stmt → Eval Completion
  | [] => pure .normal
  | s :: rest => do
    match ← inner (.execute depth env s) with
    | .normal => inner (.executeAll depth env rest)
    | c => pure c

/-- The first arm whose condition holds, or else the last block. -/
def executeElifs (depth : Nat) (env : Env) :
    List ElifClause → Option Block → Eval Completion
  | [], none => pure .normal
  | [], some b => do
    let env ← enter env []
    inner (.executeAll depth env b.body)
  | clause :: rest, otherwise => do
    let v ← inner (.evaluate depth env clause.condition)
    if v.isTruthy then
      let env ← enter env []
      inner (.executeAll depth env clause.body.body)
    else inner (.executeElifs depth env rest otherwise)

/-- A round of a `while` loop, and the rounds after it. -/
def runWhile (depth : Nat) (env : Env) (condition : Expr) (body : Block) : Eval Completion := do
  let v ← inner (.evaluate depth env condition)
  if v.isTruthy then
    let bodyEnv ← enter env []
    match ← inner (.executeAll depth bodyEnv body.body) with
    | .breakLoop => pure .normal
    | .ret v => pure (.ret v)
    | .throw t => pure (.throw t)
    | _ => inner (.runWhile depth env condition body)
  else pure .normal

/-- Whether a `for` loop goes on; one without a condition always does. -/
def holds (depth : Nat) (env : Env) : Option Expr → Eval Bool
  | none => pure true
  | some e => do
    let v ← inner (.evaluate depth env e)
    pure v.isTruthy

/-- A round of a `for` loop, and the rounds after it. A `continue` still runs the update. -/
def runFor (depth : Nat) (env : Env) (condition update : Option Expr) (body : Block) :
    Eval Completion := do
  if ← holds inner depth env condition then
    let bodyEnv ← enter env []
    match ← inner (.executeAll depth bodyEnv body.body) with
    | .breakLoop => pure .normal
    | .ret v => pure (.ret v)
    | .throw t => pure (.throw t)
    | _ =>
      match update with
      | none => inner (.runFor depth env condition update body)
      | some e => do
        let _ ← inner (.evaluate depth env e)
        inner (.runFor depth env condition update body)
  else pure .normal

end Step

/-! ## Runs -/

/-- Does a task, given a worker for its parts. -/
def step (cfg : Settings) (inner : Worker) : Worker
  | .evaluate depth env e => Step.evaluate cfg inner depth env e
  | .evaluateAll depth env es => Step.evaluateAll inner depth env es
  | .apply depth callee args => Step.apply cfg inner depth callee args
  | .applyFunc depth id self args => Step.applyFunc cfg inner depth id self args
  | .execute depth env s => Step.execute cfg inner depth env s
  | .executeSimple depth env s => Step.executeSimple inner depth env s
  | .executeAll depth env body => Step.executeAll inner depth env body
  | .executeElifs depth env clauses otherwise =>
    Step.executeElifs inner depth env clauses otherwise
  | .runWhile depth env condition body => Step.runWhile inner depth env condition body
  | .runFor depth env condition update body => Step.runFor inner depth env condition update body

/-- Does a task within a number of steps. -/
def run (cfg : Settings) : Nat → Worker
  | 0, _ => throw .exhausted
  | fuel + 1, t => step cfg (run cfg fuel) t

/-- The value of an expression. -/
def evaluate (cfg : Settings) (fuel depth : Nat) (env : Env) (e : Expr) : Eval Value :=
  run cfg fuel (.evaluate depth env e)

/-- The completion of a statement. -/
def execute (cfg : Settings) (fuel depth : Nat) (env : Env) (s : Stmt) : Eval Completion :=
  run cfg fuel (.execute depth env s)

end Tern
