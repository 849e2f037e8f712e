import Tern.CommandLine
import Tern.Yaml.Reader

/-!
# The program

The command line on real files and streams. All decisions are made in `Tern.CommandLine`; here
texts are read and written.
-/

namespace Tern.Main

/-- The text of bytes. -/
def decode (bytes : ByteArray) : String :=
  match String.fromUTF8? bytes with
  | some text => text
  | none => Text.Utf8.decode (bytes.toList.map UInt8.toNat)

/-- The code of the operating system for a directory where a file is wanted. -/
def directoryCode : UInt32 := 21

/-- A refusal of the operating system, given what is said of directories. -/
def refusal (onDirectory : FileError) : IO.Error → FileError
  | .noFileOrDirectory .. => .missing
  | .inappropriateType _ code _ => if code = directoryCode then onDirectory else .notDirectory
  | e => .refused (toString e)

/-- Reads a file. -/
def readFile (path : String) : IO (Except FileError String) := do
  try
    pure (.ok (decode (← IO.FS.readBinFile path)))
  catch e =>
    pure (.error (refusal .readDirectory e))

/-- Writes a file. -/
def writeFile (path text : String) : IO (Except FileError Unit) := do
  try
    IO.FS.writeFile path text
    pure (.ok ())
  catch e =>
    pure (.error (refusal .writeDirectory e))

/-- What a path leads to. -/
def kind? (path : Path) : IO (Option EntryKind) := do
  match ← readFile path.text with
  | .ok _ => pure (some .file)
  | .error .readDirectory => pure (some .directory)
  | .error _ => pure none

/-- All that is left of a stream. -/
partial def readAll (stream : IO.FS.Stream) (read : ByteArray) : IO ByteArray := do
  let chunk ← stream.read 65536
  if chunk.isEmpty then pure read else readAll stream (read ++ chunk)

/-- The world as it is. -/
def system : IO (System IO) := do
  let directory := Path.resolve [] (← IO.currentDir).toString
  let depth ← IO.getEnv depthVariable
  let debug ← IO.getEnv debugVariable
  pure
    { directory := directory
      kind? := kind?
      read := readFile
      write := writeFile
      «variables» := fun name =>
        if name = depthVariable then depth else if name = debugVariable then debug else none
      parseYaml := Yaml.parse?
      input := do
        let bytes ← readAll (← IO.getStdin) .empty
        pure (bytes.toList.map UInt8.toNat) }

/-- Writes what a report says. -/
def emit (report : Report) : IO Unit := do
  IO.print report.out
  IO.eprint report.err
  (← IO.getStdout).flush

/-- The exit code of a report. -/
def exitCode (report : Report) : UInt32 := if report.failed then 1 else 0

/-- Takes the lines at hand, then those to come. -/
partial def converse (r : Repl) (lines : List String) : IO UInt32 := do
  match lines with
  | [] =>
    match Text.lines (← (← IO.getStdin).getLine) with
    | [] => pure 0
    | lines => converse r lines
  | line :: rest => do
    let (report, next) := r.turn line
    emit report
    match next with
    | some r => converse r rest
    | none => pure (exitCode report)

/-- Holds an interactive session. -/
def interact (sys : System IO) : IO UInt32 := do
  match ← CommandLine.openRepl sys with
  | .error report => do
    emit report
    pure (exitCode report)
  | .ok r => do
    emit (.print r.prompt)
    converse r []

end Tern.Main

open Tern Tern.Main in
/-- Carries out the command of the arguments. -/
def main (args : List String) : IO UInt32 := do
  let sys ← system
  match Command.ofArgs args with
  | .repl => interact sys
  | command => do
    let report ← CommandLine.perform sys "tern" command
    emit report
    pure (exitCode report)
