import Tern.Value.Heap

/-!
# Functions of the host

The host can add native functions to those of the language. Such a function is called with its
arguments and with the interpreter at hand. It reads and changes the cells that it can get at,
writes, reads lines and calls values back, one thing after another, and each time it goes on with
what came out. In the end it gives something back or raises something. It catches nothing: what
leaves a call back, or a request, leaves the function.

* `Request`, `Request.Answer`: what a function may ask of the interpreter, and what it is told;
* `Routine`: the course of one call of a function;
* `Host`: the functions of the host, by name.
-/

namespace Tern

/-- How a native function of the host ends: with a value, or with a number as a value, or by
raising an error of the language, a lack of room, or a failure of the host. -/
inductive Reply where
  | value (v : Value)
  | number (x : Float)
  | fault (kind : FaultKind) (message : String)
  | range (message : String)
  | failure (message : String)

/-- What a native function of the host may ask for. -/
inductive Request where
  | write (text : String)
  | readLine
  | display (v : Value)
  | number (x : Float)
  | elements (id : ArrayId)
  | field (id : ObjectId) (name : String)
  | newArray (elements : List Value)
  | setElement (id : ArrayId) (i : Nat) (v : Value)
  | setField (id : ObjectId) (name : String) (v : Value)

/-- What a request is answered with. -/
abbrev Request.Answer : Request → Type
  | write _ | setElement .. | setField .. => Unit
  | readLine => Option String
  | display _ => String
  | number _ | newArray _ => Value
  | elements _ => List Value
  | field .. => Option Value

/-- The course of a call of a native function of the host. -/
inductive Routine where
  | reply (r : Reply)
  | ask (q : Request) (next : q.Answer → Routine)
  | call (callee : Value) (args : List Value) (next : Value → Routine)

/-- The native functions of the host, by name. -/
abbrev Host := String → List Value → Routine

end Tern
