import Tern.Value.Fault

/-!
# The heap

All that programs can change, and all that is known by number: scopes, arrays, instances and
functions. Cells are only ever added; what a number stands for stays in place. Looking up a
number that was never handed out gives an empty cell.

An `Env` is the chain of scopes in which a piece of code runs. Names are looked up from the
innermost scope outwards.

* `Heap.lookup?`, `Heap.declare`, `Heap.assign` are the operations on names.
-/

namespace Tern

/-- What a name stands for in a scope, and whether that may change. -/
structure Binding where
  value : Value
  constant : Bool

/-- The names of one scope. -/
abbrev Scope := Table Binding

/-- A chain of scopes, the innermost first. -/
structure Env where
  current : ScopeId
  outer : List ScopeId

/-- The chain as a list. -/
def Env.scopes (env : Env) : List ScopeId := env.current :: env.outer

/-- The chain with a scope put in front. -/
def Env.extend (env : Env) (scope : ScopeId) : Env := ⟨scope, env.scopes⟩

/-- A function with the scopes in which it was defined. An initializer gives back nothing. -/
structure Closure where
  definition : FuncDef
  env : Env
  initializer : Bool

instance : Inhabited Closure :=
  ⟨⟨⟨⟨"", none⟩, [], ⟨[], none⟩, none⟩, ⟨0, []⟩, false⟩⟩

/-- An instance of a class, with its fields in the order in which they were first set. -/
structure Object where
  cls : Class
  fields : Table Value

instance : Inhabited Object := ⟨⟨.base ⟨0, "", []⟩, []⟩⟩

/-- Every cell there is, and the numbers next given to a class and to a `nan`. -/
structure Heap where
  scopes : Array Scope
  arrays : Array (Array Value)
  objects : Array Object
  closures : Array Closure
  classes : Nat
  nans : Nat

namespace Heap

/-- A heap without cells. -/
def empty : Heap := ⟨#[], #[], #[], #[], 0, 0⟩

/-- The names of a scope. -/
def scope (h : Heap) (id : ScopeId) : Scope := h.scopes.getD id []

/-- The elements of an array. -/
def elements (h : Heap) (id : ArrayId) : Array Value := h.arrays.getD id #[]

/-- An instance. -/
def object (h : Heap) (id : ObjectId) : Object := h.objects.getD id default

/-- A function. -/
def closure (h : Heap) (id : FuncId) : Closure := h.closures.getD id default

/-- The name of a function. -/
def funcName (h : Heap) (id : FuncId) : String := (h.closure id).definition.id.name

/-! ## New cells -/

/-- Adds a scope. -/
def newScope (h : Heap) (s : Scope) : ScopeId × Heap :=
  (h.scopes.size, { h with scopes := h.scopes.push s })

/-- Adds an array. -/
def newArray (h : Heap) (elements : Array Value) : ArrayId × Heap :=
  (h.arrays.size, { h with arrays := h.arrays.push elements })

/-- Adds an instance. -/
def newObject (h : Heap) (o : Object) : ObjectId × Heap :=
  (h.objects.size, { h with objects := h.objects.push o })

/-- Adds a function. -/
def newClosure (h : Heap) (c : Closure) : FuncId × Heap :=
  (h.closures.size, { h with closures := h.closures.push c })

/-- The value of a computed number. -/
def newNumber (h : Heap) (x : Float) : Value × Heap :=
  if x.isNaN then (.nan h.nans, { h with nans := h.nans + 1 }) else (.number x, h)

/-! ## Names -/

/-- Sets a name of a scope. -/
def bind (h : Heap) (id : ScopeId) (name : String) (b : Binding) : Heap :=
  { h with scopes := h.scopes.modify id (Table.set name b) }

/-- The innermost scope that has a name, and what the name stands for in it. -/
def find? (h : Heap) (name : String) : List ScopeId → Option (ScopeId × Binding)
  | [] => none
  | s :: rest =>
    match (h.scope s).lookup name with
    | some b => some (s, b)
    | none => find? h name rest

/-- What a name stands for. -/
def lookup? (h : Heap) (env : Env) (name : String) : Option (ScopeId × Binding) :=
  h.find? name env.scopes

/-- The value of a name. -/
def get (h : Heap) (env : Env) (name : String) : Except Fault Value :=
  match h.lookup? env name with
  | some (_, b) => .ok b.value
  | none => .error (.undefinedVariable name)

/-- Whether a name is a constant. -/
def isConstant (h : Heap) (env : Env) (name : String) : Bool :=
  match h.lookup? env name with
  | some (_, b) => b.constant
  | none => false

/-- Whether the innermost scope itself has a name. -/
def hasOwn (h : Heap) (env : Env) (name : String) : Bool :=
  ((h.scope env.current).lookup name).isSome

/-- Whether a name can be declared in the innermost scope: not if it is a constant there. -/
def checkDeclare (h : Heap) (env : Env) (name : String) : Except Fault Unit :=
  match (h.scope env.current).lookup name with
  | some ⟨_, true⟩ => .error (.redeclared name)
  | _ => .ok ()

/-- Declares a name in the innermost scope. A constant cannot be declared again. -/
def declare (h : Heap) (env : Env) (name : String) (b : Binding) : Except Fault Heap := do
  h.checkDeclare env name
  pure (h.bind env.current name b)

/-- The scope in which an assignment to a name takes effect. -/
def assignTarget (h : Heap) (env : Env) (name : String) : Except Fault ScopeId :=
  match h.lookup? env name with
  | none => .error (.undefinedVariable name)
  | some (_, ⟨_, true⟩) => .error (.assignedConstant name)
  | some (s, ⟨_, false⟩) => .ok s

/-- Gives a name a new value in the scope that has it. A constant keeps its value. -/
def assign (h : Heap) (env : Env) (name : String) (v : Value) : Except Fault Heap := do
  let s ← h.assignTarget env name
  pure (h.bind s name ⟨v, false⟩)

/-! ## Elements and fields -/

/-- Replaces an element of an array. -/
def setElement (h : Heap) (id : ArrayId) (i : Nat) (v : Value) : Heap :=
  { h with arrays := h.arrays.modify id fun es => es.setIfInBounds i v }

/-- Sets a field of an instance. -/
def setField (h : Heap) (id : ObjectId) (name : String) (v : Value) : Heap :=
  { h with objects := h.objects.modify id fun o => { o with fields := Table.set name v o.fields } }

/-- A field of an instance. -/
def field? (h : Heap) (id : ObjectId) (name : String) : Option Value :=
  (h.object id).fields.lookup name

/-- The method of an instance, along the superclasses of its class. -/
def method? (h : Heap) (id : ObjectId) (name : String) : Option FuncId :=
  (h.object id).cls.findMethod? name

/-- A member of an instance: a field, or else a method bound to the instance. -/
def member? (h : Heap) (id : ObjectId) (name : String) : Option Value :=
  match h.field? id name with
  | some v => some v
  | none => (h.method? id name).map (.bound · id)

end Heap

end Tern
