import Tern.Feed
import Tern.Repl
import Tern.Text.Lines

/-!
# The command line

The commands and what each of them does. All they need of the world is in a `System`, so that
the same commands work on real files and on a `FileTree`.

* `Command.ofArgs` reads the arguments;
* `CommandLine.perform` carries a command out.
-/

namespace Tern

/-- What can be asked for. A path that is not given is empty. -/
inductive Command where
  | help (failed : Bool)
  | version
  | run (entry : String)
  | compile (entry : String) (out : Option String)
  | repl
deriving DecidableEq, Repr

/-- The command of arguments. What is no command is the path of a program to run. -/
def Command.ofArgs : List String → Command
  | [] => .help true
  | first :: rest =>
    if ["--help", "-h", "help"].contains first then .help false
    else if ["--version", "-V", "version"].contains first then .version
    else if first = "run" then .run (rest.headD "")
    else if first = "compile" then .compile (rest.headD "") rest[1]?
    else if first = "repl" then .repl
    else .run first

/-- The world of a command: files, variables, how the configuration format is read, and the bytes
of its input. -/
structure System (m : Type → Type) extends Files m where
  «variables» : String → Option String
  parseYaml : String → Option Yaml
  input : m (List Nat)

namespace CommandLine

variable {m : Type → Type} [Monad m]

/-- The version. -/
def version : String := "0.1.0"

/-- The extension of documents. -/
def documentExtension : String := ".ternast"

/-- How the program is used, given how it is called. -/
def usage (script : String) : String :=
  "\n".intercalate
    ["Tern CLI", "", "Usage:",
      "  tsx " ++ script ++ " run <path>              " ++
        "Execute a .tern source file or a compiled .ternast file (default command)",
      "  tsx " ++ script ++ " compile <path> [out]    " ++
        "Parse a .tern file and write its AST as JSON",
      "  tsx " ++ script ++ " repl                    Start an interactive session",
      "", "Options:",
      "  --help, -h        Show this message",
      "  --version, -V     Print CLI version",
      "", "Environment:",
      "  TERN_MAX_CALL_DEPTH   Override max_call_depth from tern.yml",
      "  TERN_DEBUG            Enable debug logging on stderr"] ++ "\n"

/-- The report of a failure in the file of a path. -/
def failed (f : Failure) (path : Option String) : Report :=
  .fail (Diagnostic.ofFailure f path).text

/-- The configuration for a path, or the report that there is none. -/
def configure (sys : System m) (start : Path) : m (Except Report Config) := do
  match ← Config.load sys.parseYaml sys.toFiles sys.«variables» start with
  | .ok c => pure (.ok c)
  | .error e => pure (.error (failed e.toFailure none))

/-- How deep evaluation may stand in itself on the stack of the host. -/
def stackLimit : Nat := 10000

/-- A session with the standard functions, as a configuration asks for. -/
def openSession (c : Config) (console : Console) : Session :=
  Session.create
    { maxCallDepth := c.maxCallDepth
      stackLimit := some stackLimit
      logger := .named "tern" c.debug
      host := fun name _ => .reply (.failure ("no function " ++ name))
      console := console
      halt := fun _ => false }
    .empty Native.standard

/-- What is reported of a run. -/
def reportRun (result : Except Signal RunResult) (s : Session) : Report :=
  let written := s.takeReport.1
  match result with
  | .ok (.ok _) => written
  | .ok (.failed d) => written ++ .fail d.text
  | .error e => written ++ .ofMessage (Failure.ofSignal e).message

/-- Runs the text of a program or of a document. -/
def runText (c : Config) (entry text : String) (isDocument : Bool) (console : Console) :
    Report :=
  let s := openSession c console
  if isDocument then
    match Document.load text with
    | .ok d =>
      let (result, s) := s.runProgram d.program (some entry)
      reportRun result s
    | .error e => failed (.ofLoad e) (some entry)
  else
    let (result, s) := s.run text (some entry)
    reportRun result s

/-- Runs a file. -/
def run (sys : System m) (entry : String) : m Report := do
  if entry = "" then pure (.fail "tern run requires a path to a .tern or .ternast file")
  else
    let path := Path.resolve sys.directory entry
    match ← configure sys path with
    | .error report => pure report
    | .ok c =>
      match ← sys.read path.text with
      | .error e =>
        pure (.fail ("failed to read " ++ entry ++ ": " ++ e.message path.text))
      | .ok text => do
        let console := Console.ofFeed (.ofBytes (← sys.input))
        pure (runText c entry text (path.text.endsWith documentExtension) console)

/-- Whether the variables ask for debug messages. -/
def isDebugging (sys : System m) : Bool :=
  ((sys.«variables» debugVariable).map Logger.isFlagOn).getD false

/-- Writes the document of a source file. -/
def compile (sys : System m) (entry : String) (out : Option String) : m Report := do
  if entry = "" then pure (.fail "tern compile requires a path to a .tern file")
  else
    let out := out.getD (PathText.withExtension entry documentExtension)
    match ← sys.read entry with
    | .error e => pure (.ofMessage (e.message entry))
    | .ok source =>
      match compile? source [("source", PathText.baseName entry)] with
      | .error e => pure (failed (.ofSyntax e) (some entry))
      | .ok text =>
        match ← sys.write out (text ++ "\n") with
        | .error e => pure (.ofMessage (e.message out))
        | .ok () =>
          let lines := (Logger.named "tern" (isDebugging sys)).lines .debug ("wrote " ++ out)
          pure (lines.foldl (fun report line => report ++ .note line) .silent)

/-- The interactive loop at its start, or the report that there is none. -/
def openRepl (sys : System m) : m (Except Report Repl) := do
  match ← configure sys sys.directory with
  | .error report => pure (.error report)
  | .ok c => pure (.ok ⟨openSession c (.ofLines []), c.prompt, ""⟩)

/-- The interactive loop on an input that is there as a whole. -/
def repl (sys : System m) : m Report := do
  match ← openRepl sys with
  | .error report => pure report
  | .ok r => do
    let lines := Text.lines (Text.Utf8.decode (← sys.input))
    pure (.print r.prompt ++ r.turns lines)

/-- Carries a command out. -/
def perform (sys : System m) (script : String) : Command → m Report
  | .help wrong => pure ⟨usage script, "", wrong⟩
  | .version => pure (.print ("tern " ++ version ++ "\n"))
  | .run entry => run sys entry
  | .compile entry out => compile sys entry out
  | .repl => repl sys

end CommandLine

end Tern
