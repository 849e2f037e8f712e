import Tern.Config
import Tern.Report

/-!
# The interactive loop

Lines are collected until they form a whole program, which is then run. A blank line is
dropped while nothing is pending, and `.exit` ends the loop while nothing is pending.

* `Repl.accept` says what a line does to the pending text;
* `Repl.turn` takes a line, `Repl.turns` many.
-/

namespace Tern

/-- The loop between two lines: its session, its prompt and the text that waits for more. -/
structure Repl where
  session : Session
  prompt : String
  pending : String

namespace Repl

/-- The line that ends the loop. -/
def exitLine : String := ".exit"

/-- The prompt while more lines are needed. -/
def continuation : String := "... "

/-- What a line does to the pending text. -/
inductive Verdict where
  | stop
  | skip
  | wait (pending : String)
  | run (source : String)
deriving DecidableEq, Repr

/-- The pending text with one more line. -/
def join (pending line : String) : String :=
  if pending = "" then line else pending ++ "\n" ++ line

/-- What a line does to the pending text. -/
def accept (pending line : String) : Verdict :=
  if pending = "" && Text.trim line = exitLine then .stop
  else
    let text := join pending line
    if Text.trim text = "" then .skip
    else if isIncomplete text then .wait text
    else .run text

/-- What is shown of the result of a run. -/
def shown (s : Session) : Except Signal RunResult → Report
  | .ok (.ok .null) => .silent
  | .ok (.ok v) =>
    match s.display? v with
    | some text => .print (text ++ "\n")
    | none => .ofMessage overflowMessage
  | .ok (.failed d) => .note d.text
  | .error e => .ofMessage (Failure.ofSignal e).message

/-- Takes a line: what is written, and the loop after it unless it is over. -/
def turn (r : Repl) (line : String) : Report × Option Repl :=
  match accept r.pending line with
  | .stop => (.silent, none)
  | .skip => (.print r.prompt, some { r with pending := "" })
  | .wait text => (.print continuation, some { r with pending := text })
  | .run source =>
    let (result, s) := r.session.run source none
    let (written, s) := s.takeReport
    let report := written ++ shown s result
    if report.failed then (report, none)
    else (report ++ .print r.prompt, some { r with session := s, pending := "" })

/-- Takes lines one after another. -/
def turns (r : Repl) : List String → Report
  | [] => .silent
  | line :: rest =>
    match r.turn line with
    | (report, some next) => report ++ next.turns rest
    | (report, none) => report

end Repl

end Tern
