import Tern.Source.Position

/-!
# Programs

The syntax trees of the language. Every node may carry the span of source it was read from;
trees that were not read from a source have none.

* `Expr` are the expressions, `Stmt` the statements and `Program` whole programs;
* `Simple` are the statements that may also start a `for` loop.
-/

namespace Tern

/-- The prefix operators. -/
inductive UnaryOp where
  | negate | not
deriving DecidableEq, Repr

/-- The arithmetic, equality and order operators. -/
inductive BinaryOp where
  | add | subtract | multiply | divide | remainder
  | equal | notEqual | less | lessEqual | greater | greaterEqual
deriving DecidableEq, Repr

/-- The operators that may leave their right operand unevaluated. -/
inductive LogicalOp where
  | and | or
deriving DecidableEq, Repr

/-- How a prefix operator is written. -/
def UnaryOp.text : UnaryOp → String
  | negate => "-"
  | not => "!"

/-- How a binary operator is written. -/
def BinaryOp.text : BinaryOp → String
  | add => "+" | subtract => "-" | multiply => "*" | divide => "/" | remainder => "%"
  | equal => "==" | notEqual => "!="
  | less => "<" | lessEqual => "<=" | greater => ">" | greaterEqual => ">="

/-- How a logical operator is written. -/
def LogicalOp.text : LogicalOp → String
  | and => "&&"
  | or => "||"

/-- The prefix operators in the order in which documents list them. -/
def UnaryOp.all : List UnaryOp := [negate, not]

/-- The binary operators in the order in which documents list them. -/
def BinaryOp.all : List BinaryOp :=
  [add, subtract, multiply, divide, remainder, equal, notEqual, less, lessEqual, greater,
    greaterEqual]

/-- The logical operators in the order in which documents list them. -/
def LogicalOp.all : List LogicalOp := [and, or]

/-- A name with the place where it stands. -/
structure Ident where
  name : String
  span : Option Span
deriving DecidableEq, Repr

/-! ## Expressions -/

/-- An expression. -/
inductive Expr where
  | string (value : String) (span : Option Span)
  | number (value : Float) (span : Option Span)
  | boolean (value : Bool) (span : Option Span)
  | null (span : Option Span)
  | array (elements : List Expr) (span : Option Span)
  | name (id : Ident)
  | this (span : Option Span)
  | super (method : Ident) (span : Option Span)
  | unary (op : UnaryOp) (operand : Expr) (span : Option Span)
  | binary (op : BinaryOp) (left right : Expr) (span : Option Span)
  | logical (op : LogicalOp) (left right : Expr) (span : Option Span)
  | call (callee : Expr) (args : List Expr) (span : Option Span)
  | member (object : Expr) (member : Ident) (span : Option Span)
  | setMember (object : Expr) (member : Ident) (value : Expr) (span : Option Span)
  | index (object index : Expr) (span : Option Span)
  | setIndex (object index value : Expr) (span : Option Span)
  | assign (target : Ident) (value : Expr) (span : Option Span)

/-- The span of an expression. -/
def Expr.span : Expr → Option Span
  | string _ s | number _ s | boolean _ s | null s | array _ s | this s | super _ s
  | unary _ _ s | binary _ _ _ s | logical _ _ _ s | call _ _ s | member _ _ s
  | setMember _ _ _ s | index _ _ s | setIndex _ _ _ s | assign _ _ s => s
  | name id => id.span

/-! ## Statements -/

/-- The statements that stand alone or start a `for` loop. -/
inductive Simple where
  | var (id : Ident) (value : Option Expr) (span : Option Span)
  | const (id : Ident) (value : Expr) (span : Option Span)
  | expr (value : Expr) (span : Option Span)

/-- The span of a simple statement. -/
def Simple.span : Simple → Option Span
  | var _ _ s | const _ _ s | expr _ s => s

mutual

/-- A statement. -/
inductive Stmt where
  | simple (statement : Simple)
  | func (definition : FuncDef)
  | cls (definition : ClassDef)
  | block (block : Block)
  | ifElse (condition : Expr) (body : Block) (elifs : List ElifClause)
      (otherwise : Option Block) (span : Option Span)
  | whileLoop (condition : Expr) (body : Block) (span : Option Span)
  | forLoop (start : Option Simple) (condition update : Option Expr) (body : Block)
      (span : Option Span)
  | breakLoop (span : Option Span)
  | continueLoop (span : Option Span)
  | ret (argument : Option Expr) (span : Option Span)
  | tryCatch (body : Block) (param : Ident) (handler : Block) (span : Option Span)
  | throw (value : Expr) (span : Option Span)

/-- Statements in braces. -/
structure Block where
  body : List Stmt
  span : Option Span

/-- A function or method definition. -/
structure FuncDef where
  id : Ident
  params : List Ident
  body : Block
  span : Option Span

/-- A class definition. -/
structure ClassDef where
  id : Ident
  superclass : Option Ident
  methods : List FuncDef
  span : Option Span

/-- An `elif` arm. -/
structure ElifClause where
  condition : Expr
  body : Block
  span : Option Span

end

/-- The span of a statement. -/
def Stmt.span : Stmt → Option Span
  | simple s => s.span
  | func f => f.span
  | cls c => c.span
  | block b => b.span
  | ifElse _ _ _ _ s | whileLoop _ _ s | forLoop _ _ _ _ s | breakLoop s | continueLoop s
  | ret _ s | tryCatch _ _ _ s | throw _ s => s

/-- A whole program. -/
structure Program where
  body : List Stmt
  span : Option Span

end Tern
