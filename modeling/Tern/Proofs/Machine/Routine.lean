import Tern.Machine.Operation

/-!
# Honest functions of the host

What a function of the host knows of the values of a program are its arguments, and what it is told
while it runs. An honest one hands over and gives back nothing else, apart from values that can be
made up: plain values, and native functions.

* `Request.given`, `Request.told`: the values that go into a request, and those that come out;
* `Routine.Honest`: a course of a call that keeps to the values it knows;
* `Host.Honest`: a host all of whose functions do.
-/

namespace Tern

/-- Null, truth values, numbers and strings. -/
def Value.IsPlain : Value → Prop
  | .null | .bool _ | .number _ | .nan _ | .string _ => True
  | _ => False

/-- The values that a request hands over. -/
def Request.given : Request → List Value
  | .write _ | .readLine | .number _ => []
  | .display v => [v]
  | .elements id => [.array id]
  | .field id _ => [.object id]
  | .newArray vs => vs
  | .setElement id _ v => [.array id, v]
  | .setField id _ v => [.object id, v]

/-- The values that an answer tells of. -/
def Request.told : (q : Request) → q.Answer → List Value
  | .number _, v | .newArray _, v => [v]
  | .elements _, vs => vs
  | .field .., v => v.toList
  | .write _, _ | .readLine, _ | .display _, _ | .setElement .., _ | .setField .., _ => []

/-- The course of the call keeps to values that are known, and to those it comes to know. -/
def Routine.Honest : Routine → (Value → Prop) → Prop
  | .reply (.value v), known => known v
  | .reply _, _ => True
  | .ask q next, known => (∀ v ∈ q.given, known v) ∧
      ∀ answer, (next answer).Honest fun v => known v ∨ v ∈ q.told answer
  | .call callee args next, known => known callee ∧ (∀ v ∈ args, known v) ∧
      ∀ result, (next result).Honest fun v => known v ∨ v = result

/-- Where every value is known, there is nothing to keep to. -/
theorem Routine.honest_of_all {known : Value → Prop} (h : ∀ v, known v) (r : Routine) :
    r.Honest known := by
  induction r generalizing known with
  | reply r =>
    cases r with
    | value v => exact h v
    | number | fault | range | failure => trivial
  | ask q next ih => exact ⟨fun v _ => h v, fun answer => ih answer fun v => .inl (h v)⟩
  | call callee args next ih =>
    exact ⟨h callee, fun v _ => h v, fun result => ih result fun v => .inl (h v)⟩

/-- A host whose functions keep to their arguments, to what they come to know, and to plain values
and native functions. -/
def Host.Honest (host : Host) : Prop :=
  ∀ name args, (host name args).Honest fun v => v ∈ args ∨ v.IsPlain ∨ ∃ f, v = .native f

end Tern
