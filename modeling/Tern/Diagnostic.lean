import Tern.Document.Loader
import Tern.Machine.Basic

/-!
# Diagnostics

How failures are reported. A `Failure` is anything that can go wrong, from the lexer to the
host; a `Diagnostic` says in which phase it arose, of what kind it is, its message, and where.

* `Diagnostic.ofFailure` reports a failure, `Diagnostic.ofThrown` an uncaught throw;
* `Diagnostic.text` writes a diagnostic in one line.
-/

namespace Tern

/-! ## Failures -/

/-- Anything that can go wrong. -/
inductive Failure where
  | general (message : String) (line column : Option Nat)
  | lex (message character : String) (pos : Position)
  | parse (expected found message : String) (pos : Position)
  | runtime (error : RuntimeError)
  | load (message : String)
  | halted (executed : Nat)
  | config (message : String) (path : Option String)
  | thrown (thrown : Thrown)
  | range (message : String)
  | error (message : String)
  | raw (message : String)

namespace Failure

/-- A syntax error as a failure. -/
def ofSyntax : SyntaxError → Failure
  | .lex e => lex e.message (String.singleton e.character) e.pos
  | .parse e => parse e.expected e.found e.message e.pos

/-- A load error as a failure. -/
def ofLoad (e : LoadError) : Failure := load e.message

/-- The name under which a failure is known. -/
def name : Failure → String
  | general .. => "TernError"
  | lex .. => "LexError"
  | parse .. => "ParseError"
  | runtime e => e.kind.text
  | load _ => "AstFormatError"
  | halted _ => "ExecutionHaltedError"
  | config .. => "ConfigError"
  | thrown _ => "Error"
  | range _ => "RangeError"
  | error _ => "Error"
  | raw _ => "Error"

/-- The message of a failure. -/
def message : Failure → String
  | general m _ _ => m
  | lex m _ _ => m
  | parse _ _ m _ => m
  | runtime e => e.message
  | load m => m
  | halted n => "execution halted by host after " ++ toString n ++ " statement(s)"
  | config m _ => m
  | thrown _ => "ThrowSignal"
  | range m => m
  | error m => m
  | raw m => m

/-- The line of a failure. -/
def line? : Failure → Option Nat
  | general _ l _ => l
  | lex _ _ p | parse _ _ _ p => some p.line
  | runtime e => e.span.map (·.start.line)
  | _ => none

/-- The column of a failure. -/
def column? : Failure → Option Nat
  | general _ _ c => c
  | lex _ _ p | parse _ _ _ p => some p.column
  | runtime e => e.span.map (·.start.column)
  | _ => none

/-- What leaves the evaluation, as a failure. -/
def ofSignal : Signal → Failure
  | .fault e => runtime e
  | .thrown t => thrown t
  | .overflow m => range m
  | .failure m => error m
  | .exhausted => error "out of steps"

end Failure

/-! ## Diagnostics -/

/-- The phase in which a failure arises. -/
inductive Phase where
  | lexer | parser | runtime | loader | config | host
deriving DecidableEq, Repr

namespace Phase

/-- The name of a phase. -/
def text : Phase → String
  | lexer => "lexer" | parser => "parser" | runtime => "runtime" | loader => "loader"
  | config => "config" | host => "host"

/-- Every phase. -/
def all : List Phase := [lexer, parser, runtime, loader, config, host]

/-- The phase with a given name. -/
def ofText? (s : String) : Option Phase :=
  all.find? fun p => p.text == s

end Phase

/-- Where a failure arose, as far as it is known. -/
structure Location where
  path : Option String
  line : Option Nat
  column : Option Nat
deriving DecidableEq, Repr

/-- A report of a failure. -/
structure Diagnostic where
  phase : Phase
  kind : String
  message : String
  location : Option Location
deriving DecidableEq, Repr

/-- A path that says something. -/
def nonempty (path : Option String) : Option String :=
  path.filter (· ≠ "")

namespace Diagnostic

/-- Where a failure with a place arose; a failure with neither line nor path has no location. -/
def locate (f : Failure) (path : Option String) : Option Location :=
  if f.line?.isNone && (nonempty path).isNone then none
  else some ⟨path, f.line?, f.column?⟩

/-- The location of a failure of which only the path is known. -/
def pathOnly (path : Option String) : Option Location :=
  (nonempty path).map fun p => ⟨some p, none, none⟩

/-- The phase of a failure. -/
def phaseOf : Failure → Phase
  | .lex .. => .lexer
  | .parse .. => .parser
  | .runtime _ | .halted _ => .runtime
  | .load _ => .loader
  | .config .. => .config
  | .general .. | .thrown _ | .range _ | .error _ | .raw _ => .host

/-- The location of a failure. -/
def locationOf (f : Failure) (path : Option String) : Option Location :=
  match f with
  | .lex .. | .parse .. | .runtime _ | .halted _ => locate f path
  | .load _ => pathOnly path
  | .config _ own => pathOnly (own <|> path)
  | .general .. | .thrown _ | .range _ | .error _ | .raw _ => none

/-- The report of a failure in the file of a path. -/
def ofFailure (f : Failure) (path : Option String) : Diagnostic :=
  ⟨phaseOf f, f.name, f.message, locationOf f path⟩

/-- The report of a throw that nothing caught, given the text of its value. -/
def ofThrown (t : Thrown) (text : String) (path : Option String) : Diagnostic :=
  match t.error with
  | some e => ofFailure (.runtime e) path
  | none =>
    let line := t.span.map (·.start.line)
    ⟨.runtime, "UncaughtException", "uncaught exception: " ++ text,
      if line.isNone && (nonempty path).isNone then none else some ⟨path, line, none⟩⟩

/-- A line or a column that says something. -/
def counted (n : Option Nat) : Option String :=
  (n.filter (· ≠ 0)).map Number.countText

/-- How a location is written, if it says anything. -/
def locationText (l : Location) : Option String :=
  match nonempty l.path, counted l.line, counted l.column with
  | some p, some line, some column => some (p ++ ":" ++ line ++ ":" ++ column)
  | some p, some line, none => some (p ++ ":" ++ line)
  | some p, none, _ => some p
  | none, some line, some column => some ("line " ++ line ++ ", column " ++ column)
  | none, some line, none => some ("line " ++ line)
  | none, none, _ => none

/-- A diagnostic in one line. -/
def text (d : Diagnostic) : String :=
  let body := d.phase.text ++ " error: " ++ d.message
  match d.location.bind locationText with
  | some place => body ++ " (" ++ place ++ ")"
  | none => body

end Diagnostic

end Tern
