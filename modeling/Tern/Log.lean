import Tern.Text.Blank

/-!
# Logs

A logger has a name and a level and writes the messages at or above its level, each as one
line. What is written is kept by whoever uses the logger, and no run reads it.
-/

namespace Tern

/-- The levels, from the most talkative to silence. -/
inductive LogLevel where
  | debug | info | warn | error | none
deriving DecidableEq, Repr

namespace LogLevel

/-- The order of levels. -/
def rank : LogLevel → Nat
  | debug => 0 | info => 1 | warn => 2 | error => 3 | none => 4

/-- How a level is written in a line. -/
def text : LogLevel → String
  | debug => "debug" | info => "info" | warn => "warn" | error => "error" | none => "none"

end LogLevel

/-- A name and the least level that is written. -/
structure Logger where
  name : String
  level : LogLevel

namespace Logger

/-- The texts that turn a flag on, blanks and capitals aside. Lower case is that of ASCII: no
other letter becomes one of these. -/
def isFlagOn (raw : String) : Bool :=
  let word := (Text.trimChars raw.toList).map Char.toLower
  ["1", "true", "yes", "on"].any fun s => s.toList = word

/-- The logger of a name, with or without debug messages. -/
def named (name : String) (debug : Bool) : Logger :=
  ⟨name, if debug then .debug else .info⟩

/-- Whether messages of a level are written. -/
def writes (l : Logger) (level : LogLevel) : Bool :=
  l.level.rank ≤ level.rank

/-- The lines that a message of a level adds. -/
def lines (l : Logger) (level : LogLevel) (message : String) : List String :=
  if l.writes level then ["[" ++ l.name ++ ":" ++ level.text ++ "] " ++ message] else []

end Logger

end Tern
