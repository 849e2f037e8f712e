import Tern.Proofs.Token.Terminal

/-!
# Trees as terminals

How a tree is written down, as far as a tree says so: with every semicolon in place, and with as
many pairs of parentheses around each expression as a `Bracketing` asks for. Along with the
terminals goes the number of levels that a parser must go down to read them.

* `Phrase`: terminals and the levels they take;
* `Bracketing.bare`: no parentheses but those which belong to statements, functions and calls;
* `Bracketing.needed`: those that the binding strengths of operators require, and any more;
* `Program.phrase`: a program written down.
-/

namespace Tern

/-! ## Phrases -/

/-- Terminals in a row, and how many levels down a parser goes to read them. -/
structure Phrase where
  terminals : List Terminal
  depth : Nat

namespace Phrase

instance : Append Phrase := ⟨fun p q => ⟨p.terminals ++ q.terminals, max p.depth q.depth⟩⟩

@[simp] theorem terminals_append (p q : Phrase) :
    (p ++ q).terminals = p.terminals ++ q.terminals := rfl

@[simp] theorem depth_append (p q : Phrase) : (p ++ q).depth = max p.depth q.depth := rfl

/-- No terminal. -/
def empty : Phrase := ⟨[], 0⟩

/-- A single terminal. -/
def one (t : Terminal) : Phrase := ⟨[t], 0⟩

/-- A single terminal that says no more than its kind. -/
def mark (kind : TokenKind) : Phrase := one (.mark kind)

/-- A phrase that is read one level further down. -/
def inner (p : Phrase) : Phrase := { p with depth := p.depth + 1 }

/-- A phrase between two marks. -/
def between (opening closing : TokenKind) (p : Phrase) : Phrase :=
  mark opening ++ p ++ mark closing

/-- A phrase in a number of pairs of parentheses. -/
def bracketed : Nat → Phrase → Phrase
  | 0, p => p
  | pairs + 1, p => between .leftParen .rightParen (bracketed pairs p).inner

/-- Phrases in a row, with a comma before each of them. -/
def afterCommas : List Phrase → Phrase
  | [] => empty
  | p :: ps => mark .comma ++ p ++ afterCommas ps

/-- Phrases in a row, with commas between them. -/
def commas : List Phrase → Phrase
  | [] => empty
  | p :: ps => p ++ afterCommas ps

@[simp] theorem terminals_empty : empty.terminals = [] := rfl

@[simp] theorem depth_empty : empty.depth = 0 := rfl

@[simp] theorem terminals_one (t : Terminal) : (one t).terminals = [t] := rfl

@[simp] theorem depth_one (t : Terminal) : (one t).depth = 0 := rfl

@[simp] theorem terminals_mark (kind : TokenKind) : (mark kind).terminals = [.mark kind] := rfl

@[simp] theorem depth_mark (kind : TokenKind) : (mark kind).depth = 0 := rfl

@[simp] theorem terminals_inner (p : Phrase) : p.inner.terminals = p.terminals := rfl

@[simp] theorem depth_inner (p : Phrase) : p.inner.depth = p.depth + 1 := rfl

@[simp] theorem terminals_between (opening closing : TokenKind) (p : Phrase) :
    (between opening closing p).terminals = .mark opening :: (p.terminals ++ [.mark closing]) :=
  rfl

@[simp] theorem depth_between (opening closing : TokenKind) (p : Phrase) :
    (between opening closing p).depth = p.depth := by
  simp [between]

@[simp] theorem bracketed_zero (p : Phrase) : bracketed 0 p = p := rfl

end Phrase

/-! ## Operators -/

/-- The kind of the tokens of a prefix operator. -/
def UnaryOp.kind : UnaryOp → TokenKind
  | negate => .minus
  | not => .bang

/-- The kind of the tokens of a binary operator. -/
def BinaryOp.kind : BinaryOp → TokenKind
  | add => .plus | subtract => .minus | multiply => .star | divide => .slash
  | remainder => .percent
  | equal => .equalEqual | notEqual => .bangEqual
  | less => .less | lessEqual => .lessEqual | greater => .greater
  | greaterEqual => .greaterEqual

/-- The kind of the tokens of a logical operator. -/
def LogicalOp.kind : LogicalOp → TokenKind
  | and => .andAnd
  | or => .pipePipe

/-- How tightly a binary operator binds. -/
def BinaryOp.tier : BinaryOp → Nat
  | equal | notEqual => 4
  | less | lessEqual | greater | greaterEqual => 5
  | add | subtract => 6
  | multiply | divide | remainder => 7

/-- How tightly a logical operator binds. -/
def LogicalOp.tier : LogicalOp → Nat
  | or => 2
  | and => 3

/-- How tightly an expression binds, from assignments to what no operator can split. -/
def Expr.tier : Expr → Nat
  | .assign .. | .setMember .. | .setIndex .. => 1
  | .logical op _ _ _ => op.tier
  | .binary op _ _ _ => op.tier
  | .unary .. => 8
  | .call .. | .member .. | .index .. => 9
  | .string .. | .number .. | .boolean .. | .null .. | .array .. | .name .. | .this ..
  | .super .. => 10

/-! ## Parentheses -/

/-- How many pairs of parentheses go around an expression, given where it stands (the way to it
from the root, the last step first), how tightly the place asks it to bind, and how tightly it
does. -/
abbrev Bracketing := List Nat → Nat → Nat → Nat

namespace Bracketing

/-- No parentheses. -/
def bare : Bracketing := fun _ _ _ => 0

/-- A pair of parentheses where an expression binds too loosely for its place, and `extra` pairs
more. -/
def needed (extra : List Nat → Nat) : Bracketing := fun place wanted tier =>
  (if tier < wanted then 1 else 0) + extra place

/-- An expression in its parentheses, given how it is written without them. -/
def around (b : Bracketing) (place : List Nat) (wanted : Nat) (e : Expr) (core : Phrase) :
    Phrase :=
  core.bracketed (b place wanted e.tier)

@[simp] theorem around_bare (place : List Nat) (wanted : Nat) (e : Expr) (core : Phrase) :
    bare.around place wanted e core = core := rfl

end Bracketing

/-! ## Expressions -/

section

variable (b : Bracketing)

mutual

/-- An expression, without the parentheses around it. The target of an assignment stands after
the other parts. -/
def Expr.core (place : List Nat) : Expr → Phrase
  | .string v _ => .one (.text v)
  | .number v _ => .one (.number v)
  | .boolean v _ => .mark (if v then .kwTrue else .kwFalse)
  | .null _ => .mark .kwNull
  | .array es _ => .between .leftBracket .rightBracket (.commas (Expr.items place 0 es))
  | .name id => .one (.name id.name)
  | .this _ => .mark .kwThis
  | .super m _ => .mark .kwSuper ++ .mark .dot ++ .one (.name m.name)
  | .unary op e _ => .mark op.kind ++ (b.around (0 :: place) 8 e (e.core (0 :: place))).inner
  | .binary op l r _ =>
    b.around (0 :: place) op.tier l (l.core (0 :: place)) ++ .mark op.kind ++
      b.around (1 :: place) (op.tier + 1) r (r.core (1 :: place))
  | .logical op l r _ =>
    b.around (0 :: place) op.tier l (l.core (0 :: place)) ++ .mark op.kind ++
      b.around (1 :: place) (op.tier + 1) r (r.core (1 :: place))
  | .call f args _ =>
    b.around (0 :: place) 9 f (f.core (0 :: place)) ++
      .between .leftParen .rightParen (.commas (Expr.items place 1 args))
  | .member o m _ =>
    b.around (0 :: place) 9 o (o.core (0 :: place)) ++ .mark .dot ++ .one (.name m.name)
  | .setMember o m v _ =>
    b.around (2 :: place) 2 (.member o m none)
        (b.around (0 :: place) 9 o (o.core (0 :: place)) ++ .mark .dot ++ .one (.name m.name)) ++
      .mark .equal ++ (b.around (1 :: place) 1 v (v.core (1 :: place))).inner
  | .index o i _ =>
    b.around (0 :: place) 9 o (o.core (0 :: place)) ++
      .between .leftBracket .rightBracket (b.around (1 :: place) 1 i (i.core (1 :: place))).inner
  | .setIndex o i v _ =>
    b.around (3 :: place) 2 (.index o i none)
        (b.around (0 :: place) 9 o (o.core (0 :: place)) ++
          .between .leftBracket .rightBracket
            (b.around (1 :: place) 1 i (i.core (1 :: place))).inner) ++
      .mark .equal ++ (b.around (2 :: place) 1 v (v.core (2 :: place))).inner
  | .assign t v _ =>
    b.around (1 :: place) 2 (.name t) (.one (.name t.name)) ++ .mark .equal ++
      (b.around (0 :: place) 1 v (v.core (0 :: place))).inner

/-- Expressions as items, each one level further down, counted from `i`. -/
def Expr.items (place : List Nat) (i : Nat) : List Expr → List Phrase
  | [] => []
  | e :: es =>
    (b.around (i :: place) 1 e (e.core (i :: place))).inner :: Expr.items place (i + 1) es

end

/-- An expression where any expression may stand. -/
def Expr.phrase (place : List Nat) (e : Expr) : Phrase :=
  (b.around place 1 e (e.core b place)).inner

/-! ## Statements -/

/-- A simple statement, without the semicolon after it. -/
def Simple.phrase (place : List Nat) : Simple → Phrase
  | .var id none _ => .mark .kwVar ++ .one (.name id.name)
  | .var id (some v) _ =>
    .mark .kwVar ++ .one (.name id.name) ++ .mark .equal ++ v.phrase b (0 :: place)
  | .const id v _ =>
    .mark .kwConst ++ .one (.name id.name) ++ .mark .equal ++ v.phrase b (0 :: place)
  | .expr e _ => e.phrase b (0 :: place)

/-- A condition in parentheses. -/
def Expr.condition (place : List Nat) (e : Expr) : Phrase :=
  .between .leftParen .rightParen (e.phrase b place)

/-- An expression that may be missing. -/
def Expr.optional (place : List Nat) : Option Expr → Phrase
  | some e => e.phrase b place
  | none => .empty

/-- A simple statement that may be missing. -/
def Simple.optional (place : List Nat) : Option Simple → Phrase
  | some s => s.phrase b place
  | none => .empty

/-- The names of parameters. -/
def Ident.parameters (ids : List Ident) : Phrase :=
  .commas (ids.map fun id => .one (.name id.name))

/-- The superclass of a class, if there is one. -/
def Ident.superclass : Option Ident → Phrase
  | some id => .mark .less ++ .one (.name id.name)
  | none => .empty

mutual

/-- A statement. -/
def Stmt.phrase (place : List Nat) : Stmt → Phrase
  | .simple s => s.phrase b place ++ .mark .semicolon
  | .func f => f.phrase place
  | .cls ⟨id, parent, methods, _⟩ =>
    .mark .kwClass ++ .one (.name id.name) ++ Ident.superclass parent ++
      .between .leftBrace .rightBrace (FuncDef.phrases place 0 methods)
  | .block body => body.phrase place
  | .ifElse c body elifs e _ =>
    .mark .kwIf ++ c.condition b (0 :: place) ++ body.phrase (1 :: place) ++
      ElifClause.phrases place 3 elifs ++ Block.elsePhrase (2 :: place) e
  | .whileLoop c body _ =>
    .mark .kwWhile ++ c.condition b (0 :: place) ++ body.phrase (1 :: place)
  | .forLoop i c u body _ =>
    .mark .kwFor ++
      .between .leftParen .rightParen
        (Simple.optional b (0 :: place) i ++ .mark .semicolon ++
          Expr.optional b (1 :: place) c ++ .mark .semicolon ++
          Expr.optional b (2 :: place) u) ++
      body.phrase (3 :: place)
  | .breakLoop _ => .mark .kwBreak ++ .mark .semicolon
  | .continueLoop _ => .mark .kwContinue ++ .mark .semicolon
  | .ret e _ => .mark .kwReturn ++ Expr.optional b (0 :: place) e ++ .mark .semicolon
  | .tryCatch body p handler _ =>
    .mark .kwTry ++ body.phrase (0 :: place) ++ .mark .kwCatch ++
      .between .leftParen .rightParen (.one (.name p.name)) ++ handler.phrase (1 :: place)
  | .throw e _ => .mark .kwThrow ++ e.phrase b (0 :: place) ++ .mark .semicolon

/-- Statements in a row, each one level further down, counted from `i`. -/
def Stmt.phrases (place : List Nat) (i : Nat) : List Stmt → Phrase
  | [] => .empty
  | s :: rest => (s.phrase (i :: place)).inner ++ Stmt.phrases place (i + 1) rest

/-- A block. -/
def Block.phrase (place : List Nat) : Block → Phrase
  | ⟨body, _⟩ => .between .leftBrace .rightBrace (Stmt.phrases place 0 body)

/-- The last arm of an `if`, if there is one. -/
def Block.elsePhrase (place : List Nat) : Option Block → Phrase
  | some body => .mark .kwElse ++ body.phrase place
  | none => .empty

/-- A function or a method. -/
def FuncDef.phrase (place : List Nat) : FuncDef → Phrase
  | ⟨id, params, body, _⟩ =>
    .mark .kwFunc ++ .one (.name id.name) ++
      .between .leftParen .rightParen (Ident.parameters params) ++ body.phrase (0 :: place)

/-- Methods in a row, counted from `i`. -/
def FuncDef.phrases (place : List Nat) (i : Nat) : List FuncDef → Phrase
  | [] => .empty
  | f :: rest => f.phrase (i :: place) ++ FuncDef.phrases place (i + 1) rest

/-- The arms of an `if`, counted from `i`. -/
def ElifClause.phrases (place : List Nat) (i : Nat) : List ElifClause → Phrase
  | [] => .empty
  | ⟨c, body, _⟩ :: rest =>
    .mark .kwElif ++ c.condition b (0 :: i :: place) ++ body.phrase (1 :: i :: place) ++
      ElifClause.phrases place (i + 1) rest

end

/-- A program. -/
def Program.phrase (p : Program) : Phrase := Stmt.phrases b [] 0 p.body

end

end Tern
