import Tern.Grammar.Statement
import Tern.Json.Printer
import Tern.Syntax.Node

/-!
# Writing programs as JSON

Each node of a syntax tree becomes an object: its kind under `type`, its parts under their
names, and its span last, if it has one. How numbers and spans look is left to a `Spelling`.

* `Program.toJson` writes a tree;
* `Spelling.document` is the spelling of documents: numbers by their shortest decimal, `null`
  for those that have none.
-/

namespace Tern

/-- How numbers and spans are written. -/
structure Spelling where
  number : Float → Json
  span : Span → Json

namespace Spelling

variable (w : Spelling)

/-- The object of a node. -/
def node (kind : String) (fields : List (Wide × Json)) (span : Option Span) : Json :=
  .object ((Wide.text "type", Json.string kind) :: fields ++
    match span with
    | some s => [("span", w.span s)]
    | none => [])

/-- An optional part. -/
def optional {α : Type} (write : α → Json) : Option α → Json
  | some a => write a
  | none => .null

/-- An identifier. -/
def ident (id : Ident) : Json :=
  w.node "Identifier" [("name", .string id.name)] id.span

mutual

/-- An expression. -/
def expr : Expr → Json
  | .string v s => w.node "StringLiteral" [("value", .string v)] s
  | .number v s => w.node "NumberLiteral" [("value", w.number v)] s
  | .boolean v s => w.node "BooleanLiteral" [("value", .bool v)] s
  | .null s => w.node "NullLiteral" [("value", .null)] s
  | .array es s => w.node "ArrayLiteral" [("elements", .array (exprs es))] s
  | .name id => w.ident id
  | .this s => w.node "ThisExpression" [] s
  | .super m s => w.node "SuperExpression" [("method", w.ident m)] s
  | .unary op e s =>
    w.node "UnaryExpression" [("operator", .string op.text), ("operand", expr e)] s
  | .binary op l r s =>
    w.node "BinaryExpression"
      [("operator", .string op.text), ("left", expr l), ("right", expr r)] s
  | .logical op l r s =>
    w.node "LogicalExpression"
      [("operator", .string op.text), ("left", expr l), ("right", expr r)] s
  | .call f args s =>
    w.node "FunctionCall" [("callee", expr f), ("arguments", .array (exprs args))] s
  | .member o m s =>
    w.node "MemberAccessExpression" [("object", expr o), ("member", w.ident m)] s
  | .setMember o m v s =>
    w.node "MemberAssignmentExpression"
      [("object", expr o), ("member", w.ident m), ("value", expr v)] s
  | .index o i s => w.node "IndexExpression" [("object", expr o), ("index", expr i)] s
  | .setIndex o i v s =>
    w.node "IndexAssignmentExpression"
      [("object", expr o), ("index", expr i), ("value", expr v)] s
  | .assign t v s =>
    w.node "AssignmentExpression" [("target", w.ident t), ("value", expr v)] s

/-- Expressions in a row. -/
def exprs : List Expr → List Json
  | [] => []
  | e :: es => expr e :: exprs es

end

/-- A simple statement. -/
def simple : Simple → Json
  | .var id v s =>
    w.node "VarDeclaration" [("id", w.ident id), ("initializer", optional w.expr v)] s
  | .const id v s =>
    w.node "ConstDeclaration" [("id", w.ident id), ("initializer", w.expr v)] s
  | .expr e s => w.node "ExpressionStatement" [("expression", w.expr e)] s

mutual

/-- A statement. -/
def stmt : Stmt → Json
  | .simple s => w.simple s
  | .func f => funcDef f
  | .cls ⟨id, parent, methods, s⟩ =>
    w.node "ClassDefinition"
      [("id", w.ident id), ("superclass", optional w.ident parent),
        ("methods", .array (funcDefs methods))] s
  | .block b => block b
  | .ifElse c b elifs e s =>
    w.node "IfStatement"
      [("ifCondition", w.expr c), ("ifBody", block b), ("elifClauses", .array (elifClauses elifs)),
        ("elseBody", optionalBlock e)] s
  | .whileLoop c b s => w.node "WhileLoop" [("condition", w.expr c), ("body", block b)] s
  | .forLoop i c u b s =>
    w.node "ForLoop"
      [("initializer", optional w.simple i), ("condition", optional w.expr c),
        ("update", optional w.expr u), ("body", block b)] s
  | .breakLoop s => w.node "BreakStatement" [] s
  | .continueLoop s => w.node "ContinueStatement" [] s
  | .ret e s => w.node "ReturnStatement" [("argument", optional w.expr e)] s
  | .tryCatch b p h s =>
    w.node "TryStatement"
      [("tryBody", block b), ("catchParam", w.ident p), ("catchBody", block h)] s
  | .throw e s => w.node "ThrowStatement" [("expression", w.expr e)] s

/-- Statements in a row. -/
def stmts : List Stmt → List Json
  | [] => []
  | s :: rest => stmt s :: stmts rest

/-- A block. -/
def block : Block → Json
  | ⟨body, s⟩ => w.node "BlockStatement" [("body", .array (stmts body))] s

/-- A block that may be missing. -/
def optionalBlock : Option Block → Json
  | some b => block b
  | none => .null

/-- A function definition. -/
def funcDef : FuncDef → Json
  | ⟨id, params, body, s⟩ =>
    w.node "FunctionDefinition"
      [("id", w.ident id), ("params", .array (params.map w.ident)), ("body", block body)] s

/-- Function definitions in a row. -/
def funcDefs : List FuncDef → List Json
  | [] => []
  | f :: rest => funcDef f :: funcDefs rest

/-- The arms of an `if`. -/
def elifClauses : List ElifClause → List Json
  | [] => []
  | ⟨c, b, s⟩ :: rest =>
    w.node "ElifClause" [("condition", w.expr c), ("body", block b)] s :: elifClauses rest

end

/-- A program. -/
def program (p : Program) : Json :=
  w.node "Program" [("body", .array (w.stmts p.body))] p.span

/-! ## Documents -/

/-- A position of a document. -/
def position (p : Position) : Json :=
  .object [("line", .number (.ofCount p.line)), ("column", .number (.ofCount p.column))]

/-- The spelling of documents. -/
def document : Spelling where
  number x := match Decimal.ofFloat? x with
    | some d => .number d
    | none => .null
  span s := .object [("start", position s.start), ("end", position s.stop)]

end Spelling

/-- The name of the document format. -/
def documentFormat : String := "tern-ast"

/-- The version of the document format. -/
def documentVersion : Nat := 1

/-- A program with notes about it. -/
structure Document where
  metadata : List (Wide × Wide)
  program : Program

namespace Document

/-- A document as JSON. -/
def toJson (d : Document) : Json :=
  .object
    [("format", .string documentFormat), ("version", .ofNat documentVersion),
      ("metadata", .object ((Json.arrange d.metadata).map fun m => (m.1, .string m.2))),
      ("program", Spelling.document.program d.program)]

/-- The text of a document. -/
def text (d : Document) : String :=
  d.toJson.pretty

end Document

/-- The document text of a source. -/
def compile? (source : String) (metadata : List (Wide × Wide)) :
    Except SyntaxError String := do
  let p ← Program.parse? source
  pure (Document.text ⟨metadata, p⟩)

end Tern
