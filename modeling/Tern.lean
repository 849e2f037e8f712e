import Tern.Text.Units
import Tern.Text.Wide
import Tern.Text.Blank
import Tern.Text.Utf8
import Tern.Decimal.Basic
import Tern.Decimal.Nearest
import Tern.Decimal.Binary
import Tern.Decimal.Shortest
import Tern.Decimal.Layout
import Tern.Decimal.Numeral
import Tern.Source.Position
import Tern.Token.Basic
import Tern.Token.Lexer
import Tern.Syntax.Basic
import Tern.Syntax.Node
import Tern.Grammar.Error
import Tern.Grammar.Input
import Tern.Grammar.Expression
import Tern.Grammar.Statement
import Tern.Json.Basic
import Tern.Json.Printer
import Tern.Json.Reader
import Tern.Document.Writer
import Tern.Document.Loader
import Tern.Table
import Tern.Log
import Tern.Value.Basic
import Tern.Value.Fault
import Tern.Value.Heap
import Tern.Value.Display
import Tern.Value.Equality
import Tern.Console
import Tern.Machine.Host
import Tern.Machine.Basic
import Tern.Machine.Operation
import Tern.Machine.Evaluate
import Tern.Machine.Program
import Tern.Diagnostic
import Tern.Session
import Tern.Text.Lines
import Tern.Feed
import Tern.Files.Path
import Tern.Files.Basic
import Tern.Files.Tree
import Tern.Yaml.Basic
import Tern.Yaml.Reader
import Tern.Config
import Tern.Report
import Tern.Repl
import Tern.CommandLine
import Tern.Main
import Tern.Proofs.Grammar.Postcondition
import Tern.Proofs.Syntax.Placement
import Tern.Proofs.Grammar.Placement
import Tern.Proofs.Console
import Tern.Proofs.Machine.Routine
import Tern.Proofs.Machine.Discipline
import Tern.Proofs.Machine.Run
import Tern.Proofs.Machine.Moment
import Tern.Proofs.Session
import Tern.Proofs.Machine.ControlFlow
import Tern.Proofs.Machine.CallDepth
import Tern.Proofs.Value.Growth
import Tern.Proofs.Machine.Receiver
import Tern.Proofs.Machine.Escape
import Tern.Proofs.Decimal.Numeral
import Tern.Proofs.Decimal.Nearest
import Tern.Proofs.Decimal.ReadBack
import Tern.Proofs.Text.Units
import Tern.Proofs.Text.Wide
import Tern.Proofs.Text.Blank
import Tern.Proofs.Json.RoundTrip
import Tern.Proofs.Json.Arrangement
import Tern.Proofs.Syntax.Tree
import Tern.Proofs.Document.Recordable
import Tern.Proofs.Document.RoundTrip
import Tern.Proofs.Token.Spelling
import Tern.Proofs.Token.Position
import Tern.Proofs.Token.Lexeme
import Tern.Proofs.Decimal.Grammar
import Tern.Proofs.Token.Numeral
import Tern.Proofs.Token.Decomposition
import Tern.Proofs.Document.Loads
import Tern.Proofs.Document.Compile
import Tern.Proofs.Grammar.Form
import Tern.Proofs.Grammar.Soundness
import Tern.Proofs.Grammar.Canonical
import Tern.Proofs.Grammar.Rendering
import Tern.Proofs.Grammar.Reading
import Tern.Proofs.Grammar.Completeness
import Tern.Proofs.Syntax.Bare
import Tern.Proofs.Syntax.Phrase
import Tern.Proofs.History
import Tern.Proofs.Machine.Constants
import Tern.Proofs.Machine.DepthLimit
import Tern.Proofs.Machine.Scoping
import Tern.Proofs.Syntax.Respan
import Tern.Proofs.Machine.Disguise
import Tern.Proofs.Machine.Reflection
import Tern.Proofs.Machine.Unseen
import Tern.Proofs.Machine.Sequence
import Tern.Proofs.Token.Layout
import Tern.Proofs.Token.Juxtaposition
import Tern.Proofs.Grammar.Comparison
import Tern.Proofs.Grammar.SideBySide
import Tern.Proofs.Grammar.Layout
import Tern.Proofs.Grammar.Composition
import Tern.Proofs.Value.Bisimilarity
import Tern.Proofs.Machine.Unwinding
import Tern.Proofs.Machine.Equality
import Tern.Proofs.Machine.Comparison
import Tern.Proofs.Machine.Catching
import Tern.Proofs.Decimal.Count
import Tern.Proofs.Document.Shape
import Tern.Proofs.Document.Acceptance
import Tern.Proofs.Document.Rearrangement
import Tern.Proofs.Machine.Raising
import Tern.Proofs.Machine.HostFailure
import Tern.Proofs.Machine.Plain
import Tern.Proofs.Machine.Relaying
import Tern.Proofs.Machine.Code
import Tern.Proofs.Machine.Blame
import Tern.Proofs.Grammar.Ending
import Tern.Proofs.Grammar.Trailing
import Tern.Proofs.Grammar.Stopping
import Tern.Proofs.Token.Extension
import Tern.Proofs.Grammar.Finality
import Tern.Proofs.Grammar.Prompt
import Tern.Proofs.Grammar.Completing
import Tern.Proofs.Grammar.Completion
import Tern.Proofs.Grammar.Completability
import Tern.Proofs.Machine.Members
import Tern.Proofs.Machine.Defining
import Tern.Proofs.Machine.Contents
import Tern.Proofs.Machine.Allocation
import Tern.Proofs.Machine.Lengths
import Tern.Proofs.Machine.Numbering
import Tern.Proofs.Machine.Chains
import Tern.Proofs.Machine.Simulation
import Tern.Proofs.Machine.Lockstep
import Tern.Proofs.Machine.Alignment
import Tern.Proofs.Machine.Jumps
import Tern.Proofs.Machine.Settling
import Tern.Proofs.Machine.Loops
import Tern.Proofs.Value.Showing
import Tern.Proofs.Token.Order
import Tern.Proofs.Grammar.Row
import Tern.Proofs.Grammar.LastTerminal
import Tern.Proofs.Grammar.Drawing
import Tern.Proofs.Grammar.Spans
import Tern.Proofs.Grammar.Semicolon
import Tern.Proofs.Grammar.Terminator
import Tern.Proofs.Feed
import Tern.Proofs.Repl
import Tern.Proofs.Config
import Tern.Proofs.Grammar.Recursion
