import Tern.Decimal.Layout
import Tern.Value.Basic

/-!
# Faults

What can go wrong while a program runs. A `Fault` is the cause; its kind and its message follow
from it. A `RuntimeError` is a fault and the place of the innermost construct in which it arose.

* `Fault.kind` and `Fault.message`;
* `RuntimeError.attach` gives an error its place, the first time only.
-/

namespace Tern

/-- The kinds of fault. -/
inductive FaultKind where
  | undefinedVariable | redeclaration | constAssignment | type | arity | notCallable
  | undefinedMethod | conversion | stackOverflow | index
deriving DecidableEq, Repr

namespace FaultKind

/-- The name of a kind of fault. -/
def text : FaultKind → String
  | undefinedVariable => "UndefinedVariableError"
  | redeclaration => "RedeclarationError"
  | constAssignment => "ConstAssignmentError"
  | type => "TypeError"
  | arity => "ArityError"
  | notCallable => "NotCallableError"
  | undefinedMethod => "UndefinedMethodError"
  | conversion => "ConversionError"
  | stackOverflow => "StackOverflowError"
  | index => "IndexError"

/-- Every kind. -/
def all : List FaultKind :=
  [undefinedVariable, redeclaration, constAssignment, type, arity, notCallable, undefinedMethod,
    conversion, stackOverflow, index]

/-- The kind with a given name. -/
def ofText? (s : String) : Option FaultKind :=
  all.find? fun k => k.text == s

end FaultKind

/-- What went wrong. -/
inductive Fault where
  | undefinedVariable (name : String)
  | redeclared (name : String)
  | assignedConstant (name : String)
  | negated (type : TypeName)
  | operands (op : BinaryOp) (left right : TypeName)
  | readMember (name : String) (type : TypeName)
  | setMember (name : String) (type : TypeName)
  | calledMember (name : String) (type : TypeName)
  | indexed (type : TypeName)
  | indexAssigned (type : TypeName)
  | superclass (name : String) (type : TypeName)
  | superOutside
  | lengthOf (type : TypeName)
  | arity (name : String) (expected received : Nat)
  | notCallable (type : TypeName)
  | undefinedMethod (name className : String)
  | undefinedSuperMethod (name className : String)
  | numeral (text : String)
  | conversion (type : TypeName)
  | callDepth (limit : Nat)
  | hostStack
  | indexType (type : TypeName)
  | indexRange (index : Float) (length : Nat)
  | foreign (kind : FaultKind) (message : String)

namespace Fault

/-- The kind of a fault. -/
def kind : Fault → FaultKind
  | undefinedVariable _ => .undefinedVariable
  | redeclared _ => .redeclaration
  | assignedConstant _ => .constAssignment
  | negated _ | operands .. | readMember .. | setMember .. | calledMember .. | indexed _
  | indexAssigned _ | superclass .. | superOutside | lengthOf _ => .type
  | arity .. => .arity
  | notCallable _ => .notCallable
  | undefinedMethod .. | undefinedSuperMethod .. => .undefinedMethod
  | numeral _ | conversion _ => .conversion
  | callDepth _ | hostStack => .stackOverflow
  | indexType _ | indexRange .. => .index
  | foreign kind _ => kind

/-- A text in single quotes. -/
def quote (s : String) : String := "'" ++ s ++ "'"

/-- The message of a fault. -/
def message : Fault → String
  | undefinedVariable name => "Undefined variable " ++ quote name
  | redeclared name => "Cannot redeclare constant " ++ quote name
  | assignedConstant name => "Cannot assign to constant " ++ quote name
  | negated t => "Operand of unary '-' must be a number (got " ++ t.text ++ ")"
  | operands op l r =>
    "Unsupported operand types for " ++ quote op.text ++ ": " ++ l.text ++ " and " ++ r.text
  | readMember name t =>
    "Only instances have properties (cannot read " ++ quote name ++ " of " ++ t.text ++ ")"
  | setMember name t =>
    "Only instances have fields (cannot set " ++ quote name ++ " on " ++ t.text ++ ")"
  | calledMember name t =>
    "Only instances have methods (cannot call " ++ quote name ++ " on " ++ t.text ++ ")"
  | indexed t => "Only arrays and strings can be indexed (got " ++ t.text ++ ")"
  | indexAssigned t => "Only arrays support index assignment (got " ++ t.text ++ ")"
  | superclass name t =>
    "Superclass of " ++ quote name ++ " must be a class (got " ++ t.text ++ ")"
  | superOutside => "'super' used outside of a subclass method"
  | lengthOf t => "len() expects a string or an array (got " ++ t.text ++ ")"
  | arity name expected received =>
    "Expected " ++ toString expected ++ (if expected = 1 then " argument" else " arguments")
      ++ " but got " ++ toString received ++ " calling " ++ quote name
  | notCallable t => "Can only call functions and classes (got " ++ t.text ++ ")"
  | undefinedMethod name className => "Undefined method " ++ quote name ++ " on " ++ className
  | undefinedSuperMethod name className =>
    "Undefined method " ++ quote name ++ " on superclass " ++ className
  | numeral text => "Cannot convert \"" ++ text ++ "\" to a number"
  | conversion t => "Cannot convert " ++ t.text ++ " to a number"
  | callDepth limit => "Maximum call depth of " ++ toString limit ++ " exceeded"
  | hostStack => "Maximum call stack size exceeded"
  | indexType t => "Index must be an integer (got " ++ t.text ++ ")"
  | indexRange i n =>
    "Index " ++ Number.text i ++ " out of range for length " ++ toString n
  | foreign _ message => message

end Fault

/-- A fault and the place where it arose, once that is known. -/
structure RuntimeError where
  fault : Fault
  span : Option Span

namespace RuntimeError

/-- Gives an error its place unless it has one already. -/
def attach (e : RuntimeError) (span : Option Span) : RuntimeError :=
  match e.span with
  | some _ => e
  | none => { e with span := span }

/-- The message of an error. -/
def message (e : RuntimeError) : String := e.fault.message

/-- The kind of an error. -/
def kind (e : RuntimeError) : FaultKind := e.fault.kind

end RuntimeError

end Tern
