import Tern.Decimal.Numeral
import Tern.Machine.Basic

/-!
# Operations

What operators, members, indices and native functions do once their operands are there.
-/

namespace Tern.Eval

/-! ## Operators -/

/-- A prefix operator. -/
def unary (op : UnaryOp) (v : Value) : Eval Value :=
  match op with
  | .not => pure (.bool !v.isTruthy)
  | .negate =>
    match v.toFloat? with
    | some x => number (-x)
    | none => fault (.negated v.typeName)

/-- The arithmetic operators on doubles. -/
def arithmetic : BinaryOp → Float → Float → Option Float
  | .add, x, y => some (x + y)
  | .subtract, x, y => some (x - y)
  | .multiply, x, y => some (x * y)
  | .divide, x, y => some (x / y)
  | .remainder, x, y => some (Number.remainder x y)
  | _, _, _ => none

/-- The order operators on doubles. -/
def compareNumbers : BinaryOp → Float → Float → Option Bool
  | .less, x, y => some (x < y)
  | .lessEqual, x, y => some (x ≤ y)
  | .greater, x, y => some (x > y)
  | .greaterEqual, x, y => some (x ≥ y)
  | _, _, _ => none

/-- The order operators on strings, which are compared code unit by code unit. -/
def compareStrings : BinaryOp → String → String → Option Bool
  | .less, s, t => some (Text.before s t)
  | .lessEqual, s, t => some (!Text.before t s)
  | .greater, s, t => some (Text.before t s)
  | .greaterEqual, s, t => some (!Text.before s t)
  | _, _, _ => none

/-- An operator on two numbers. -/
def onNumbers (op : BinaryOp) (x y : Float) : Option (Eval Value) :=
  match arithmetic op x y with
  | some z => some (number z)
  | none => (compareNumbers op x y).map fun b => pure (.bool b)

/-- An operator on two values of which at least one is a string. -/
def onStrings (cfg : Settings) (depth : Nat) (op : BinaryOp) (l r : Value) :
    Option (Eval Value) :=
  match op, l, r with
  | .add, l, r => some do
    let s ← display cfg depth l
    let t ← display cfg depth r
    pure (.string (s ++ t))
  | op, .string s, .string t => (compareStrings op s t).map fun b => pure (.bool b)
  | _, _, _ => none

/-- Whether a value is a string. -/
def isString : Value → Bool
  | .string _ => true
  | _ => false

/-- The operators other than equality. -/
def computed (cfg : Settings) (depth : Nat) (op : BinaryOp) (l r : Value) : Eval Value :=
  let result :=
    match l.toFloat?, r.toFloat? with
    | some x, some y => onNumbers op x y
    | _, _ => if isString l || isString r then onStrings cfg depth op l r else none
  match result with
  | some x => x
  | none => fault (.operands op l.typeName r.typeName)

/-- A binary operator. -/
def binary (cfg : Settings) (depth : Nat) (op : BinaryOp) (l r : Value) : Eval Value :=
  match op with
  | .equal => do pure (.bool (← equal cfg depth l r))
  | .notEqual => do pure (.bool !(← equal cfg depth l r))
  | op => computed cfg depth op l r

/-! ## Members -/

/-- Reads a member; an instance that has none of the name gives null. -/
def readMember (object : Value) (name : String) : Eval Value :=
  match object with
  | .object id => do pure (((← heap).member? id name).getD .null)
  | v => fault (.readMember name v.typeName)

/-- The member that a call asks for; an instance must have it. -/
def memberForCall (object : Value) (name : String) : Eval Value :=
  match object with
  | .object id => do
    let h ← heap
    match h.member? id name with
    | some v => pure v
    | none => fault (.undefinedMethod name (h.object id).cls.name)
  | v => fault (.calledMember name v.typeName)

/-- The instance whose member is to be set. -/
def memberTarget (object : Value) (name : String) : Eval ObjectId :=
  match object with
  | .object id => pure id
  | v => fault (.setMember name v.typeName)

/-- A method of the superclass, bound to the instance at hand. -/
def superMethod (env : Env) (name : String) : Eval Value := do
  let parent ← lookup env "super"
  let self ← lookup env "this"
  match parent, self with
  | .cls c, .object id =>
    match c.findMethod? name with
    | some f => pure (.bound f id)
    | none => fault (.undefinedSuperMethod name c.name)
  | _, _ => fault .superOutside

/-! ## Indices -/

/-- The position that an index means in something of a length. -/
def position (index : Value) (length : Nat) : Eval Nat :=
  match index.toFloat?, index.toFloat?.bind Number.toInt? with
  | some x, some i =>
    if 0 ≤ i && i < length then pure i.toNat else fault (.indexRange x length)
  | _, _ => fault (.indexType index.typeName)

/-- Reads an element of an array or a character of a string. -/
def readIndex (object index : Value) : Eval Value :=
  match object with
  | .array id => do
    let es := (← heap).elements id
    let i ← position index es.size
    pure (es.getD i .null)
  | .string s => do
    let cs := s.toList
    let i ← position index cs.length
    pure (.string (String.ofList (cs[i]?.toList)))
  | v => fault (.indexed v.typeName)

/-- The element that an assignment to an index means. -/
def indexTarget (object index : Value) : Eval (ArrayId × Nat) :=
  match object with
  | .array id => do
    let i ← position index ((← heap).elements id).size
    pure (id, i)
  | v => fault (.indexAssigned v.typeName)

/-! ## Native functions -/

/-- The texts of values, one after another. -/
def displayAll (cfg : Settings) (depth : Nat) : List Value → Eval (List String)
  | [] => pure []
  | v :: rest => do
    let s ← display cfg depth v
    let ss ← displayAll cfg depth rest
    pure (s :: ss)

/-- The number that a value can be read as. -/
def toNumber (v : Value) : Eval Value :=
  match v with
  | .number _ | .nan _ => pure v
  | .string s =>
    match Number.parse? s with
    | some x => number x
    | none => fault (.numeral s)
  | v => fault (.conversion v.typeName)

/-- The length of a string, in characters, or of an array. -/
def length (v : Value) : Eval Value :=
  match v with
  | .string s => pure (.number (Float.ofNat s.toList.length))
  | .array id => do pure (.number (Float.ofNat ((← heap).elements id).size))
  | v => fault (.lengthOf v.typeName)

/-- How a function of the host ends. -/
def reply : Reply → Eval Value
  | .value v => pure v
  | .number x => number x
  | .fault kind message => fault (.foreign kind message)
  | .range message => throw (.overflow message)
  | .failure message => throw (.failure message)

/-- Does what a function of the host asks for. -/
def request (cfg : Settings) (depth : Nat) : (q : Request) → Eval q.Answer
  | .write text => write text
  | .readLine => readLine
  | .display v => display cfg depth v
  | .number x => number x
  | .elements id => do pure ((← heap).elements id).toList
  | .field id name => do pure ((← heap).field? id name)
  | .newArray vs => do pure (.array (← alloc (·.newArray vs.toArray)))
  | .setElement id i v => update (·.setElement id i v)
  | .setField id name v => update (·.setField id name v)

section

variable (cfg : Settings) (callBack : Value → List Value → Eval Value) (depth : Nat)

/-- Goes through a call of a function of the host; `callBack` does the calls that it makes. -/
def routine : Routine → Eval Value
  | .reply r => reply r
  | .ask q next => do
    let answer ← request cfg depth q
    routine (next answer)
  | .call callee args next => do
    let v ← callBack callee args
    routine (next v)

/-- A native function applied to the right number of arguments. -/
def runNative (f : Native) (args : List Value) : Eval Value :=
  let first := args.head?.getD .null
  match f with
  | .print => do
    let texts ← displayAll cfg depth args
    write (" ".intercalate texts ++ "\n")
    pure .null
  | .input => do
    write (← display cfg depth first)
    pure (.string ((← readLine).getD ""))
  | .type => pure (.string first.typeName.text)
  | .str => do pure (.string (← display cfg depth first))
  | .num => toNumber first
  | .len => length first
  | .foreign name _ => routine cfg callBack depth (cfg.host name args)

/-- A native function applied to any number of arguments. -/
def callNative (f : Native) (args : List Value) : Eval Value :=
  match f.arity with
  | some n =>
    if n = args.length then runNative cfg callBack depth f args
    else fault (.arity f.name n args.length)
  | none => runNative cfg callBack depth f args

end

/-! ## Definitions -/

/-- Defines a function. -/
def defineFunc (env : Env) (f : FuncDef) : Eval Unit := do
  let id ← alloc (·.newClosure ⟨f, env, false⟩)
  declare env f.id.name (.func id) false

/-- The superclass that a class definition names. -/
def superclass (env : Env) (c : ClassDef) : Eval (Option Class) :=
  match c.superclass with
  | none => pure none
  | some id => do
    match ← lookup env id.name with
    | .cls parent => pure (some parent)
    | v => fault (.superclass c.id.name v.typeName)

/-- The name of the method that new instances are set up by. -/
def initializerName : String := "init"

/-- Makes the methods of a class, the last of each name counting. -/
def methods (env : Env) : List FuncDef → Table FuncId → Eval (Table FuncId)
  | [], done => pure done
  | f :: rest, done => do
    let id ← alloc (·.newClosure ⟨f, env, f.id.name = initializerName⟩)
    methods env rest (Table.set f.id.name id done)

/-- Adds a class. -/
def newClass (name : String) (parent : Option Class) (methods : Table FuncId) : Eval Class :=
  alloc fun h =>
    let decl : ClassDecl := ⟨h.classes, name, methods⟩
    (match parent with
      | some p => .derived decl p
      | none => .base decl, { h with classes := h.classes + 1 })

/-- Defines a class. Methods of a class with a superclass see it as `super`. -/
def defineClass (env : Env) (c : ClassDef) : Eval Unit := do
  let parent ← superclass env c
  let methodEnv ← match parent with
    | some p => enter env [("super", ⟨.cls p, true⟩)]
    | none => pure env
  let table ← methods methodEnv c.methods []
  let value ← newClass c.id.name parent table
  declare env c.id.name (.cls value) false

/-- The scope of a call: `this` for a method, in a scope of its own, and the parameters. -/
def enterCall (closure : Closure) (self : Option ObjectId) (args : List Value) : Eval Env := do
  let env ← match self with
    | some id => enter closure.env [("this", ⟨.object id, true⟩)]
    | none => pure closure.env
  let names := closure.definition.params.map (·.name)
  enter env (Table.ofList (names.zip (args.map (⟨·, false⟩))))

end Tern.Eval
