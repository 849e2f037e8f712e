import Tern.Syntax.Basic
import Tern.Table

/-!
# Values

The values that programs compute with. Null, truth values, numbers and strings are known by
what they are; arrays, instances, functions and classes are known by which one they are, so
they carry the number under which they were made. A computation that yields no number yields a
fresh `nan`: it is equal to itself and to nothing else.

* `Class.findMethod?` looks a method up along the superclasses;
* `Value.typeName` is what `type` answers.
-/

namespace Tern

/-- The number of a scope. -/
abbrev ScopeId := Nat
/-- The number of an array. -/
abbrev ArrayId := Nat
/-- The number of an instance. -/
abbrev ObjectId := Nat
/-- The number of a function. -/
abbrev FuncId := Nat

/-- What a class itself declares. -/
structure ClassDecl where
  id : Nat
  name : String
  methods : Table FuncId

/-- A class, which may have a superclass. -/
inductive Class where
  | base (decl : ClassDecl)
  | derived (decl : ClassDecl) (parent : Class)

namespace Class

/-- What the class itself declares. -/
def decl : Class → ClassDecl
  | base d => d
  | derived d _ => d

/-- The superclass. -/
def parent? : Class → Option Class
  | base _ => none
  | derived _ p => some p

/-- The name of the class. -/
def name (c : Class) : String := c.decl.name

/-- The class and its superclasses, from the class upwards. -/
def lineage : Class → List Class
  | base d => [base d]
  | derived d p => derived d p :: lineage p

/-- The method of a name: the class's own, or else that of its superclass. -/
def findMethod? (name : String) : Class → Option FuncId
  | base d => d.methods.lookup name
  | derived d p =>
    match d.methods.lookup name with
    | some f => some f
    | none => findMethod? name p

end Class

/-- The functions that the host provides: the standard ones, and others known by name and
number of arguments. -/
inductive Native where
  | print | input | type | str | num | len
  | foreign (name : String) (arity : Option Nat)
deriving DecidableEq

namespace Native

/-- The name of a native function. -/
def name : Native → String
  | print => "print" | input => "input" | type => "type" | str => "str" | num => "num"
  | len => "len"
  | foreign name _ => name

/-- How many arguments a native function takes; `none` is any number. -/
def arity : Native → Option Nat
  | print => none
  | input | type | str | num | len => some 1
  | foreign _ arity => arity

/-- The standard functions. -/
def standard : List Native := [print, input, type, str, num, len]

end Native

/-- A value. -/
inductive Value where
  | null
  | bool (value : Bool)
  | number (value : Float)
  | nan (id : Nat)
  | string (value : String)
  | array (id : ArrayId)
  | func (id : FuncId)
  | bound (func : FuncId) (self : ObjectId)
  | native (function : Native)
  | cls (value : Class)
  | object (id : ObjectId)

/-- The types that values are said to have. -/
inductive TypeName where
  | null | boolean | number | string | array | function | nativeFunction | cls | object
deriving DecidableEq, Repr

/-- How a type is written. -/
def TypeName.text : TypeName → String
  | null => "null" | boolean => "boolean" | number => "number" | string => "string"
  | array => "array" | function => "function" | nativeFunction => "native_function"
  | cls => "class" | object => "instance"

namespace Value

/-- The type of a value. -/
def typeName : Value → TypeName
  | null => .null
  | bool _ => .boolean
  | number _ | nan _ => .number
  | string _ => .string
  | array _ => .array
  | func _ | bound .. => .function
  | native _ => .nativeFunction
  | cls _ => .cls
  | object _ => .object

/-- Everything but null and false counts as true. -/
def isTruthy : Value → Bool
  | null => false
  | bool b => b
  | _ => true

/-- Whether a value can be called. -/
def isCallable : Value → Bool
  | func _ | bound .. | native _ | cls _ => true
  | _ => false

/-- The double that a number is. -/
def toFloat? : Value → Option Float
  | number x => some x
  | nan _ => some (0.0 / 0.0)
  | _ => none

end Value

end Tern
