import Tern.Session

/-!
# Reports

What a command writes to its two streams, and whether it failed.

* `Session.takeReport` takes what a session has written out of it.
-/

namespace Tern

/-- What was written, and whether something went wrong. -/
structure Report where
  out : String
  err : String
  failed : Bool
deriving DecidableEq, Repr

namespace Report

/-- Nothing written. -/
def silent : Report := ⟨"", "", false⟩

/-- A text on the stream of results. -/
def print (text : String) : Report := ⟨text, "", false⟩

/-- A line on the stream of errors, which by itself is no failure. -/
def note (line : String) : Report := ⟨"", line ++ "\n", false⟩

/-- A line on the stream of errors, and failure. -/
def fail (line : String) : Report := ⟨"", line ++ "\n", true⟩

/-- One report after another. -/
def append (a b : Report) : Report := ⟨a.out ++ b.out, a.err ++ b.err, a.failed || b.failed⟩

instance : Append Report := ⟨append⟩

/-- How a failure outside of programs is reported. -/
def ofMessage (message : String) : Report := fail ("error: " ++ message)

end Report

/-- Takes out of a session what it has written: the output of its programs and its log. -/
def Session.takeReport (s : Session) : Report × Session :=
  let m := s.machine
  let log := String.join (m.log.toList.map (· ++ "\n"))
  (⟨m.console.output, log, false⟩,
    { s with machine := { m with console := { m.console with output := "" }, log := #[] } })

end Tern
