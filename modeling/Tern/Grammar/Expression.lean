import Tern.Decimal.Layout
import Tern.Grammar.Input

/-!
# Expressions

The grammar of expressions, from the loosest to the tightest binding:

    assignment  →  ( name | call "." name | call "[" expression "]" ) "=" assignment | or
    or          →  and ( "||" and )*
    and         →  equality ( "&&" equality )*
    equality    →  comparison ( ( "==" | "!=" ) comparison )*
    comparison  →  term ( ( "<" | "<=" | ">" | ">=" ) term )*
    term        →  factor ( ( "+" | "-" ) factor )*
    factor      →  unary ( ( "*" | "/" | "%" ) unary )*
    unary       →  ( "!" | "-" ) unary | call
    call        →  primary ( "(" arguments ")" | "." name | "[" expression "]" )*

Wherever the grammar runs in a circle it passes through a `Level`: the parsers available one
level further in. A circle can therefore be followed only as often as there are levels.
-/

namespace Tern

/-- Where a construct stands: in a function, in a loop of that function, and in a class, in
which case the class has a superclass or not. -/
structure Context where
  inFunction : Bool
  inLoop : Bool
  enclosing : Option Bool
deriving DecidableEq, Repr

/-- Outside of everything. -/
def Context.top : Context := ⟨false, false, none⟩

/-- The parsers that may be used one level further in. -/
structure Level where
  expression : Context → Parser Expr
  operand : Context → Parser Expr
  declaration : Context → Parser Stmt

namespace Grammar

open Tern.Parser

/-! ## Primary expressions -/

/-- The number that a literal token stands for; a token without a value stands for none. -/
def numberValue (t : Token) : Float :=
  match t.literal with
  | some (.number x) => x
  | some (.text s) => Number.ofText s
  | none => 0.0 / 0.0

/-- The text that a literal token stands for. -/
def stringValue (t : Token) : String :=
  match t.literal with
  | some (.number x) => Number.text x
  | some (.text s) => s
  | none => "undefined"

/-- `this`, which needs a class around it. -/
def thisExpr (ctx : Context) (t : Token) : Parser Expr := do
  if ctx.enclosing = none then failAt t .thisOutside
  else pure (.this (← spanFrom t))

/-- A method of the superclass, which needs a class with a superclass around it. -/
def superExpr (ctx : Context) (t : Token) : Parser Expr := do
  match ctx.enclosing with
  | none => failAt t .superOutside
  | some false => failAt t .superWithoutSuperclass
  | some true =>
    let _ ← expect .dot "'.' after 'super'"
    let method ← ident "superclass method name"
    pure (.super method (← spanFrom t))

/-- An expression in parentheses, whose opening one has been taken. -/
def grouped (inner : Level) (ctx : Context) : Parser Expr := do
  let e ← inner.expression ctx
  let _ ← expect .rightParen "')' after expression"
  pure e

/-- An array, whose opening bracket has been taken. -/
def arrayExpr (inner : Level) (ctx : Context) (t : Token) : Parser Expr := do
  let elements ← commaSeparated .rightBracket fun _ => inner.expression ctx
  let _ ← expect .rightBracket "']' after array elements"
  pure (.array elements (← spanFrom t))

/-- The expressions that bind tightest. -/
def primary (inner : Level) (ctx : Context) : Parser Expr := do
  let t ← peek
  match t.kind with
  | .number =>
    let _ ← advance
    pure (.number (numberValue t) (← spanFrom t))
  | .string =>
    let _ ← advance
    pure (.string (stringValue t) (← spanFrom t))
  | .kwTrue =>
    let _ ← advance
    pure (.boolean true (← spanFrom t))
  | .kwFalse =>
    let _ ← advance
    pure (.boolean false (← spanFrom t))
  | .kwNull =>
    let _ ← advance
    pure (.null (← spanFrom t))
  | .kwThis =>
    let _ ← advance
    thisExpr ctx t
  | .kwSuper =>
    let _ ← advance
    superExpr ctx t
  | .identifier =>
    let _ ← advance
    pure (.name ⟨t.lexeme, ← spanFrom t⟩)
  | .leftParen =>
    let _ ← advance
    grouped inner ctx
  | .leftBracket =>
    let _ ← advance
    arrayExpr inner ctx t
  | _ => failAt t (.unexpected "expression")

/-! ## Calls, members and indices -/

/-- What may follow an expression without a blank change of meaning: a call, a member or an
index. -/
inductive Suffix where
  | call | member | index
deriving DecidableEq, Repr

/-- The suffix that a token opens. -/
def Suffix.ofKind : TokenKind → Option Suffix
  | .leftParen => some .call
  | .dot => some .member
  | .leftBracket => some .index
  | _ => none

/-- An expression with one more suffix. -/
def suffixed (inner : Level) (ctx : Context) (start : Token) (e : Expr) : Suffix → Parser Expr
  | .call => do
    let args ← commaSeparated .rightParen fun _ => inner.expression ctx
    let _ ← expect .rightParen "')' after arguments"
    pure (.call e args (← spanFrom start))
  | .member => do
    let member ← ident "property name after '.'"
    pure (.member e member (← spanFrom start))
  | .index => do
    let index ← inner.expression ctx
    let _ ← expect .rightBracket "']' after index"
    pure (.index e index (← spanFrom start))

/-- A primary expression and its suffixes. -/
def call (inner : Level) (ctx : Context) : Parser Expr := do
  let start ← peek
  let e ← primary inner ctx
  chain (acceptAs Suffix.ofKind) (suffixed inner ctx start) e

/-! ## Operators -/

/-- The prefix operator that a token is. -/
def unaryOp : TokenKind → Option UnaryOp
  | .bang => some .not
  | .minus => some .negate
  | _ => none

/-- The multiplicative operators. -/
def factorOp : TokenKind → Option BinaryOp
  | .star => some .multiply
  | .slash => some .divide
  | .percent => some .remainder
  | _ => none

/-- The additive operators. -/
def termOp : TokenKind → Option BinaryOp
  | .plus => some .add
  | .minus => some .subtract
  | _ => none

/-- The order operators. -/
def comparisonOp : TokenKind → Option BinaryOp
  | .less => some .less
  | .lessEqual => some .lessEqual
  | .greater => some .greater
  | .greaterEqual => some .greaterEqual
  | _ => none

/-- The equality operators. -/
def equalityOp : TokenKind → Option BinaryOp
  | .equalEqual => some .equal
  | .bangEqual => some .notEqual
  | _ => none

/-- The conjunction operator. -/
def andOp : TokenKind → Option LogicalOp
  | .andAnd => some .and
  | _ => none

/-- The disjunction operator. -/
def orOp : TokenKind → Option LogicalOp
  | .pipePipe => some .or
  | _ => none

/-- Operands joined by operators of one tier, grouped from the left. -/
def leftAssoc {β : Type} (op : TokenKind → Option β)
    (join : β → Expr → Expr → Option Span → Expr) (operand : Parser Expr) : Parser Expr := do
  let start ← peek
  let first ← operand
  chain (acceptAs op) (fun left b => do
    let right ← operand
    pure (join b left right (← spanFrom start))) first

/-- A prefix operator and its operand, or a call. -/
def unary (inner : Level) (ctx : Context) : Parser Expr := do
  let t ← peek
  match unaryOp t.kind with
  | some op =>
    let _ ← advance
    let operand ← inner.operand ctx
    pure (.unary op operand (← spanFrom t))
  | none => call inner ctx

/-- Products, quotients and remainders. -/
def factor (inner : Level) (ctx : Context) : Parser Expr :=
  leftAssoc factorOp .binary (unary inner ctx)

/-- Sums and differences. -/
def term (inner : Level) (ctx : Context) : Parser Expr :=
  leftAssoc termOp .binary (factor inner ctx)

/-- Order comparisons. -/
def comparison (inner : Level) (ctx : Context) : Parser Expr :=
  leftAssoc comparisonOp .binary (term inner ctx)

/-- Equality comparisons. -/
def equality (inner : Level) (ctx : Context) : Parser Expr :=
  leftAssoc equalityOp .binary (comparison inner ctx)

/-- Conjunctions. -/
def logicAnd (inner : Level) (ctx : Context) : Parser Expr :=
  leftAssoc andOp .logical (equality inner ctx)

/-- Disjunctions. -/
def logicOr (inner : Level) (ctx : Context) : Parser Expr :=
  leftAssoc orOp .logical (logicAnd inner ctx)

/-! ## Assignments -/

/-- The assignment of a value to a target, if the target can be assigned to. -/
def assignTo? (target value : Expr) (span : Option Span) : Option Expr :=
  match target with
  | .name id => some (.assign id value span)
  | .member object member _ => some (.setMember object member value span)
  | .index object index _ => some (.setIndex object index value span)
  | _ => none

/-- An assignment, or whatever binds tighter. The target is read as an expression first. -/
def assignment (inner : Level) (ctx : Context) : Parser Expr := do
  let start ← peek
  let target ← logicOr inner ctx
  if ← check .equal then
    let equals ← advance
    let value ← inner.expression ctx
    match assignTo? target value (← spanFrom start) with
    | some e => pure e
    | none => failAt equals .badTarget
  else pure target

end Grammar

end Tern
