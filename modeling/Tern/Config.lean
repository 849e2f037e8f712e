import Tern.Diagnostic
import Tern.Files.Basic
import Tern.Yaml.Basic

/-!
# Configuration

A configuration comes from a file of a fixed name, searched for from a path upwards, and from
two environment variables, which win over the file. Only known keys with values of the right
type are accepted, and errors of the file come before those of the variables. What the text of a
file stands for is up to a reader of the format, which is a parameter here.

* `Config.find` searches for the file;
* `Config.ofYaml` is the configuration that a file's contents describe;
* `Config.override` applies the variables;
* `Config.load` does all of it.
-/

namespace Tern

/-- The settings of a session, and the file they were read from. -/
structure Config where
  path : Option String
  maxCallDepth : Nat
  prompt : String
  debug : Bool
deriving DecidableEq, Repr

/-- Where a call depth is given. -/
inductive DepthOrigin where
  | file (path : String)
  | environment
deriving DecidableEq, Repr

/-- What is wrong with a configuration. -/
inductive ConfigError where
  | unreadable (path : String)
  | malformed (path : String)
  | notMapping (path : String)
  | notDepth (origin : DepthOrigin)
  | tooDeep (origin : DepthOrigin)
  | notPrompt (path : String)
  | notDebug (path : String)
  | unknownKey (key path : String)
deriving DecidableEq, Repr

/-- The variable that overrides the call depth. -/
def depthVariable : String := "TERN_MAX_CALL_DEPTH"

/-- The variable that overrides whether debug messages are written. -/
def debugVariable : String := "TERN_DEBUG"

/-- How messages name a call depth. -/
def DepthOrigin.label : DepthOrigin → String
  | file path => "max_call_depth in " ++ path
  | environment => depthVariable

/-- The file that gave a call depth. -/
def DepthOrigin.path? : DepthOrigin → Option String
  | file path => some path
  | environment => none

namespace ConfigError

/-- The message of a configuration error. -/
def message : ConfigError → String
  | unreadable path => "failed to read config " ++ path
  | malformed path => "failed to parse config " ++ path
  | notMapping path => "config " ++ path ++ " must be a mapping"
  | notDepth origin => origin.label ++ " must be a positive integer"
  | tooDeep origin => origin.label ++ " must not exceed " ++ toString maxCallDepthLimit
  | notPrompt path => "prompt in " ++ path ++ " must be a string"
  | notDebug path => "debug in " ++ path ++ " must be true or false"
  | unknownKey key path => "unknown key \"" ++ key ++ "\" in " ++ path

/-- The file that an error is about. -/
def path? : ConfigError → Option String
  | unreadable path | malformed path | notMapping path | notPrompt path | notDebug path
  | unknownKey _ path => some path
  | notDepth origin | tooDeep origin => origin.path?

/-- A configuration error as a failure. -/
def toFailure (e : ConfigError) : Failure :=
  .config e.message e.path?

end ConfigError

namespace Config

/-- The name of the configuration file. -/
def fileName : String := "tern.yml"

/-- The configuration without a file and variables. -/
def default : Config := ⟨none, defaultCallDepth, "tern> ", false⟩

/-! ## Values -/

/-- The call depth that a number asks for: a whole number within bounds. -/
def depthOf (origin : DepthOrigin) (x : Float) : Except ConfigError Nat :=
  match Number.toInt? x with
  | some (Int.ofNat (n + 1)) =>
    if n + 1 ≤ maxCallDepthLimit then .ok (n + 1) else .error (.tooDeep origin)
  | _ => .error (.notDepth origin)

/-- The call depth that a value asks for. -/
def depthOfYaml (origin : DepthOrigin) : Yaml → Except ConfigError Nat
  | .number x => depthOf origin x
  | _ => .error (.notDepth origin)

/-- The configuration after one more entry of the file of a path. -/
def set (path : String) (c : Config) (key : String) (value : Yaml) :
    Except ConfigError Config :=
  if key = "max_call_depth" then
    (depthOfYaml (.file path) value).map fun n => { c with maxCallDepth := n }
  else if key = "prompt" then
    match value with
    | .string s => .ok { c with prompt := s }
    | _ => .error (.notPrompt path)
  else if key = "debug" then
    match value with
    | .bool b => .ok { c with debug := b }
    | _ => .error (.notDebug path)
  else .error (.unknownKey key path)

/-- The configuration after the entries of a mapping. -/
def setAll (path : String) : Config → List (String × Yaml) → Except ConfigError Config
  | c, [] => .ok c
  | c, (key, value) :: rest => do
    let c ← set path c key value
    setAll path c rest

/-- The configuration that the contents of a file describe. An empty file describes the
default. -/
def ofYaml (path : String) : Yaml → Except ConfigError Config
  | .null => .ok { Config.default with path := some path }
  | .mapping entries => setAll path { Config.default with path := some path } entries
  | _ => .error (.notMapping path)

/-! ## Variables -/

/-- The number that a variable spells in decimal digits. -/
def digits? (text : String) : Option Float :=
  let cs := text.toList
  if cs ≠ [] && cs.all isDigit then some (Decimal.ofDigits false cs [] 0).toFloat else none

/-- The call depth that a variable asks for. A blank variable asks for none. -/
def depthVariable? (text : String) : Except ConfigError (Option Nat) :=
  let text := Text.trim text
  if text = "" then .ok none
  else
    match digits? text with
    | some x => (depthOf .environment x).map some
    | none => .error (.notDepth .environment)

/-- The configuration after the variables. -/
def override (given : String → Option String) (c : Config) : Except ConfigError Config := do
  let depth ← match given depthVariable with
    | some text => depthVariable? text
    | none => pure none
  pure
    { c with
      maxCallDepth := depth.getD c.maxCallDepth
      debug := ((given debugVariable).map Logger.isFlagOn).getD c.debug }

/-! ## Files -/

/-- The first path at or above a directory at which the file stands. -/
def findFrom {m : Type → Type} [Monad m] (files : Files m) : Path → m (Option Path)
  | [] => do
    match ← files.kind? [fileName] with
    | some .file => pure (some [fileName])
    | _ => pure none
  | name :: above => do
    match ← files.kind? (fileName :: name :: above) with
    | some .file => pure (some (fileName :: name :: above))
    | _ => findFrom files above

/-- The configuration file for a path: that of the nearest directory at or above it. A path to
a file stands for the directory it lies in. -/
def find {m : Type → Type} [Monad m] (files : Files m) (start : Path) : m (Option Path) := do
  match ← files.kind? start with
  | some .file => findFrom files start.tail
  | _ => findFrom files start

section

variable {m : Type → Type} [Monad m] (parse : String → Option Yaml)

/-- The configuration that the text of a file describes, when the format is read like this. -/
def ofText (path : String) (text : String) : Except ConfigError Config :=
  match parse text with
  | some y => ofYaml path y
  | none => .error (.malformed path)

/-- Reads a configuration file. -/
def read (files : Files m) (path : Path) : m (Except ConfigError Config) := do
  match ← files.read path.text with
  | .ok text => pure (ofText parse path.text text)
  | .error _ => pure (.error (.unreadable path.text))

/-- The configuration for a path. -/
def load (files : Files m) (given : String → Option String) (start : Path) :
    m (Except ConfigError Config) := do
  match ← find files start with
  | none => pure (override given Config.default)
  | some path => do
    let c ← read parse files path
    pure (c.bind (override given))

end

end Config

end Tern
