import Tern.Syntax.Basic

/-!
# Nodes

One type for everything that stands in a syntax tree, so that questions about parents and
children can be asked uniformly.

* `Node.kind` names the form of a node, as documents do;
* `Node.children` lists the children of a node in the order in which they are written down;
* `Program.outline` is the tree in preorder, with depths.
-/

namespace Tern

/-- The name of an expression form. -/
def Expr.kind : Expr → String
  | string .. => "StringLiteral"
  | number .. => "NumberLiteral"
  | boolean .. => "BooleanLiteral"
  | null .. => "NullLiteral"
  | array .. => "ArrayLiteral"
  | name .. => "Identifier"
  | this .. => "ThisExpression"
  | super .. => "SuperExpression"
  | unary .. => "UnaryExpression"
  | binary .. => "BinaryExpression"
  | logical .. => "LogicalExpression"
  | call .. => "FunctionCall"
  | member .. => "MemberAccessExpression"
  | setMember .. => "MemberAssignmentExpression"
  | index .. => "IndexExpression"
  | setIndex .. => "IndexAssignmentExpression"
  | assign .. => "AssignmentExpression"

/-- The name of a simple statement form. -/
def Simple.kind : Simple → String
  | var .. => "VarDeclaration"
  | const .. => "ConstDeclaration"
  | expr .. => "ExpressionStatement"

/-- The name of a statement form. -/
def Stmt.kind : Stmt → String
  | simple s => s.kind
  | func .. => "FunctionDefinition"
  | cls .. => "ClassDefinition"
  | block .. => "BlockStatement"
  | ifElse .. => "IfStatement"
  | whileLoop .. => "WhileLoop"
  | forLoop .. => "ForLoop"
  | breakLoop .. => "BreakStatement"
  | continueLoop .. => "ContinueStatement"
  | ret .. => "ReturnStatement"
  | tryCatch .. => "TryStatement"
  | throw .. => "ThrowStatement"

/-- Anything that stands in a syntax tree. -/
inductive Node where
  | program (p : Program)
  | stmt (s : Stmt)
  | elif (e : ElifClause)
  | expr (e : Expr)

namespace Node

/-- An identifier as a node. -/
def ident (id : Ident) : Node := expr (.name id)

/-- The name of a node's form. -/
def kind : Node → String
  | program _ => "Program"
  | stmt s => s.kind
  | elif _ => "ElifClause"
  | expr e => e.kind

/-- The span of a node. -/
def span : Node → Option Span
  | program p => p.span
  | stmt s => s.span
  | elif e => e.span
  | expr e => e.span

/-- The children of an expression. -/
def ofExpr : Expr → List Node
  | .string .. | .number .. | .boolean .. | .null .. | .name .. | .this .. => []
  | .array es _ => es.map expr
  | .super m _ => [ident m]
  | .unary _ e _ => [expr e]
  | .binary _ l r _ | .logical _ l r _ => [expr l, expr r]
  | .call f args _ => expr f :: args.map expr
  | .member o m _ => [expr o, ident m]
  | .setMember o m v _ => [expr o, ident m, expr v]
  | .index o i _ => [expr o, expr i]
  | .setIndex o i v _ => [expr o, expr i, expr v]
  | .assign t v _ => [ident t, expr v]

/-- The children of a simple statement. -/
def ofSimple : Simple → List Node
  | .var id v _ => ident id :: (v.map expr).toList
  | .const id v _ => [ident id, expr v]
  | .expr e _ => [expr e]

/-- A block as a node. -/
def block (b : Block) : Node := stmt (.block b)

/-- The children of a statement. -/
def ofStmt : Stmt → List Node
  | .simple s => ofSimple s
  | .func f => ident f.id :: f.params.map ident ++ [block f.body]
  | .cls c => ident c.id :: (c.superclass.map ident).toList ++ c.methods.map (stmt ∘ .func)
  | .block b => b.body.map stmt
  | .ifElse c b elifs e _ => expr c :: block b :: elifs.map elif ++ (e.map block).toList
  | .whileLoop c b _ => [expr c, block b]
  | .forLoop i c u b _ =>
    (i.map (stmt ∘ .simple)).toList ++ (c.map expr).toList ++ (u.map expr).toList ++ [block b]
  | .breakLoop _ | .continueLoop _ => []
  | .ret e _ => (e.map expr).toList
  | .tryCatch b p h _ => [block b, ident p, block h]
  | .throw e _ => [expr e]

/-- The children of a node, in the order in which they are written down. -/
def children : Node → List Node
  | program p => p.body.map stmt
  | stmt s => ofStmt s
  | elif e => [expr e.condition, block e.body]
  | expr e => ofExpr e

end Node

/-! ## Outlines -/

/-- Takes up to `limit` nodes, each before its children and those before what is left over. -/
def Node.walk : Nat → List (Nat × Node) → List (Nat × Node) → List (Nat × Node)
  | 0, done, _ => done.reverse
  | _, done, [] => done.reverse
  | limit + 1, done, (depth, n) :: rest =>
    walk limit ((depth, n) :: done) (n.children.map (depth + 1, ·) ++ rest)

/-- The first `limit` nodes of a program in preorder, each with its depth. -/
def Program.outline (limit : Nat) (p : Program) : List (Nat × Node) :=
  Node.walk limit [] [(0, .program p)]

end Tern
