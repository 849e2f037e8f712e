import Tern.Grammar.Statement

/-!
# Recursive descent

The grammar as a program with a stack and loops follows it. The rules call each other freely, and
every call takes a frame of the stack for as long as it lasts. What bounds the circles among the
rules is a count of how deep constructs are nested, which three of the calls raise. Loops go on as
long as tokens call for another round. Nothing here bounds the stack or the loops by itself: both
have a budget, and a descent that uses one up ends without a result.

* `Descent.Call`: the rules that can be called;
* `Descent.run`: a call on a stack with a number of frames;
* `Descent.program`: the descent into a whole program.
-/

namespace Tern

/-- Why a descent ends without a result: the tokens are refused, a token is taken for an operator
although it is none, the stack is full, or a loop has had all of its rounds. -/
inductive Stop where
  | refused (e : SyntaxError)
  | noOperator (kind : TokenKind)
  | stackFull
  | roundsSpent
deriving DecidableEq, Repr

/-- Parsers that may stop short. -/
abbrev Descent (α : Type) := StateT Input (Except Stop) α

namespace Descent

/-- A parser that calls no rule. -/
def lift {α : Type} (p : Parser α) : Descent α := fun s => (p s).mapError .refused

instance : MonadLift Parser Descent := ⟨lift⟩

/-- The rules, each with what it reads. -/
inductive Call : Type → Type where
  | declaration : Call Stmt
  | anyDeclaration : Call Stmt
  | classDeclaration : Call ClassDef
  | functionDeclaration (what : String) : Call FuncDef
  | varDeclaration : Call Simple
  | constDeclaration : Call Simple
  | statement : Call Stmt
  | ifStatement : Call Stmt
  | whileStatement : Call Stmt
  | forStatement : Call Stmt
  | breakStatement : Call Stmt
  | continueStatement : Call Stmt
  | returnStatement : Call Stmt
  | tryStatement : Call Stmt
  | throwStatement : Call Stmt
  | block (what : String) : Call Block
  | loopBody (what : String) : Call Block
  | parenthesized (keyword : String) : Call Expr
  | expressionStatement : Call Simple
  | expression : Call Expr
  | assignment : Call Expr
  | logicOr : Call Expr
  | logicAnd : Call Expr
  | equality : Call Expr
  | comparison : Call Expr
  | term : Call Expr
  | factor : Call Expr
  | unary : Call Expr
  | call : Call Expr
  | primary : Call Expr

/-- How rules are called, at a depth of nesting. -/
abbrev Caller := (α : Type) → Call α → Nat → Context → Descent α

open Tern.Parser Grammar

/-! ## Nesting and loops -/

/-- Goes in by one level, unless that is too deep. -/
def nested {α : Type} (depth : Nat) (inner : Nat → Descent α) : Descent α :=
  if maxNesting ≤ depth then lift tooNested else inner (depth + 1)

/-- Repeats `step` as long as `more` has something for it, in a limited number of rounds. -/
def loop {α β : Type} (more : Descent (Option β)) (step : α → β → Descent α) : Nat → α → Descent α
  | 0, _ => throw .roundsSpent
  | rounds + 1, a => do
    match ← more with
    | none => pure a
    | some b =>
      let a ← step a b
      loop more step rounds a

section

variable (rounds : Nat)

/-- Items up to a closing brace or the end of input. -/
def untilClose {α : Type} (item : Descent α) : Descent (List α) := do
  let more : Descent (Option Unit) := do
    if ← atClose then pure none else pure (some ())
  let items ← loop more (fun items _ => do pure ((← item) :: items)) rounds []
  pure items.reverse

/-- Items with commas between them, none at all if the closing kind is ahead. -/
def commaSeparated {α : Type} (close : TokenKind) (item : List α → Descent α) :
    Descent (List α) := do
  if ← check close then pure []
  else
    let first ← item []
    let more : Descent (Option Unit) := do
      if ← accept .comma then pure (some ()) else pure none
    let items ← loop more (fun items _ => do pure ((← item items) :: items)) rounds [first]
    pure items.reverse

/-! ## Operators -/

/-- Takes the token ahead if it is of one of some kinds. -/
def acceptAny : List TokenKind → Parser Bool
  | [] => pure false
  | kind :: kinds => do
    if ← accept kind then pure true else acceptAny kinds

/-- The operator that a kind is. Kinds that are none are not expected here. -/
def operator : TokenKind → Descent BinaryOp
  | .plus => pure .add
  | .minus => pure .subtract
  | .star => pure .multiply
  | .slash => pure .divide
  | .percent => pure .remainder
  | .equalEqual => pure .equal
  | .bangEqual => pure .notEqual
  | .less => pure .less
  | .lessEqual => pure .lessEqual
  | .greater => pure .greater
  | .greaterEqual => pure .greaterEqual
  | kind => throw (.noOperator kind)

/-- Operands joined by operators of some kinds, grouped from the left. The operator is told from
the token last taken. -/
def binary (kinds : List TokenKind) (operand : Descent Expr) : Descent Expr := do
  let start ← peek
  let first ← operand
  let more : Descent (Option BinaryOp) := do
    if ← acceptAny kinds then some <$> operator (← previous).kind else pure none
  loop more (fun left op => do
    let right ← operand
    pure (.binary op left right (← spanFrom start))) rounds first

/-- Operands joined by one logical operator, grouped from the left. -/
def logical (kind : TokenKind) (op : LogicalOp) (operand : Descent Expr) : Descent Expr := do
  let start ← peek
  let first ← operand
  let more : Descent (Option LogicalOp) := do
    if ← accept kind then pure (some op) else pure none
  loop more (fun left op => do
    let right ← operand
    pure (.logical op left right (← spanFrom start))) rounds first

end

/-! ## Rules -/

section

variable (rounds : Nat) (go : Caller) (depth : Nat) (ctx : Context)

/-- A primary expression. -/
def primary : Descent Expr := do
  let t ← peek
  match t.kind with
  | .number =>
    let _ ← advance
    pure (.number (numberValue t) (← spanFrom t))
  | .string =>
    let _ ← advance
    pure (.string (stringValue t) (← spanFrom t))
  | .kwTrue =>
    let _ ← advance
    pure (.boolean true (← spanFrom t))
  | .kwFalse =>
    let _ ← advance
    pure (.boolean false (← spanFrom t))
  | .kwNull =>
    let _ ← advance
    pure (.null (← spanFrom t))
  | .kwThis =>
    let _ ← advance
    thisExpr ctx t
  | .kwSuper =>
    let _ ← advance
    superExpr ctx t
  | .identifier =>
    let _ ← advance
    pure (.name ⟨t.lexeme, ← spanFrom t⟩)
  | .leftParen =>
    let _ ← advance
    let e ← go _ .expression depth ctx
    let _ ← expect .rightParen "')' after expression"
    pure e
  | .leftBracket =>
    let _ ← advance
    let elements ← commaSeparated rounds .rightBracket fun _ => go _ .expression depth ctx
    let _ ← expect .rightBracket "']' after array elements"
    pure (.array elements (← spanFrom t))
  | _ => failAt t (.unexpected "expression")

/-- An expression with one more suffix. -/
def suffixed (start : Token) (e : Expr) : Suffix → Descent Expr
  | .call => do
    let args ← commaSeparated rounds .rightParen fun _ => go _ .expression depth ctx
    let _ ← expect .rightParen "')' after arguments"
    pure (.call e args (← spanFrom start))
  | .member => do
    let member ← ident "property name after '.'"
    pure (.member e member (← spanFrom start))
  | .index => do
    let index ← go _ .expression depth ctx
    let _ ← expect .rightBracket "']' after index"
    pure (.index e index (← spanFrom start))

/-- The suffix that is ahead. Its first token is taken. -/
def suffix : Parser (Option Suffix) := do
  if ← accept .leftParen then pure (some .call)
  else if ← accept .dot then pure (some .member)
  else if ← accept .leftBracket then pure (some .index)
  else pure none

/-- A primary expression and its suffixes. -/
def call : Descent Expr := do
  let start ← peek
  let e ← go _ .primary depth ctx
  loop (lift suffix) (suffixed rounds go depth ctx start) rounds e

/-- A prefix operator and its operand, or a call. -/
def unary : Descent Expr := do
  if (← check .bang) || (← check .minus) then
    let t ← advance
    let operand ← nested depth fun depth => go _ .unary depth ctx
    pure (.unary (if t.kind = .bang then .not else .negate) operand (← spanFrom t))
  else go _ .call depth ctx

/-- An assignment, or whatever binds tighter. -/
def assignment : Descent Expr := do
  let start ← peek
  let target ← go _ .logicOr depth ctx
  if ← check .equal then
    let equals ← advance
    let value ← nested depth fun depth => go _ .assignment depth ctx
    match assignTo? target value (← spanFrom start) with
    | some e => pure e
    | none => failAt equals .badTarget
  else pure target

/-- A condition in parentheses after a keyword. -/
def parenthesized (keyword : String) : Descent Expr := do
  let _ ← expect .leftParen ("'(' after '" ++ keyword ++ "'")
  let condition ← go _ .expression depth ctx
  let _ ← expect .rightParen ("')' after " ++ keyword ++ " condition")
  pure condition

/-- Statements in braces. -/
def block (what : String) : Descent Block := do
  let opening ← expect .leftBrace ("'\x7b' before " ++ what)
  let body ← untilClose rounds (go _ .declaration depth ctx)
  let _ ← expect .rightBrace ("'\x7d' after " ++ what)
  pure ⟨body, ← spanFrom opening⟩

/-- A function or a method. -/
def functionDeclaration (what : String) : Descent FuncDef := do
  let keyword ← advance
  let id ← ident (what ++ " name")
  let _ ← expect .leftParen ("'(' after " ++ what ++ " name")
  let params ← commaSeparated rounds .rightParen fun before => lift (param before)
  let _ ← expect .rightParen "')' after parameters"
  let body ← go _ (.block (what ++ " body")) depth { ctx with inFunction := true, inLoop := false }
  pure ⟨id, params, body, ← spanFrom keyword⟩

/-- A method of a class. -/
def method : Descent FuncDef := do
  let t ← peek
  if t.kind = .kwFunc then go _ (.functionDeclaration "method") depth ctx
  else failAt t (.unexpected "method declaration")

/-- A class. -/
def classDeclaration : Descent ClassDef := do
  let keyword ← advance
  let id ← ident "class name"
  let parent ← superclass id
  let _ ← expect .leftBrace "'\x7b' before class body"
  let methods ← untilClose rounds (method go depth { ctx with enclosing := some parent.isSome })
  let _ ← expect .rightBrace "'\x7d' after class body"
  pure ⟨id, parent, methods, ← spanFrom keyword⟩

/-- A variable. -/
def varDeclaration : Descent Simple := do
  let keyword ← advance
  let id ← ident "variable name"
  let value ← if ← accept .equal then some <$> go _ .expression depth ctx else pure none
  pure (.var id value (← spanFrom keyword))

/-- A constant. -/
def constDeclaration : Descent Simple := do
  let keyword ← advance
  let id ← ident "constant name"
  let _ ← expect .equal ("'=' after constant name '" ++ id.name ++ "'")
  let value ← go _ .expression depth ctx
  pure (.const id value (← spanFrom keyword))

/-- An expression as a statement. -/
def expressionStatement : Descent Simple := do
  let start ← peek
  let e ← go _ .expression depth ctx
  pure (.expr e (← spanFrom start))

/-- An `elif` arm. -/
def elifClause : Descent ElifClause := do
  let keyword ← advance
  let condition ← go _ (.parenthesized "elif") depth ctx
  let body ← go _ (.block "elif body") depth ctx
  pure ⟨condition, body, ← spanFrom keyword⟩

/-- An `if` statement. -/
def ifStatement : Descent Stmt := do
  let keyword ← advance
  let condition ← go _ (.parenthesized "if") depth ctx
  let body ← go _ (.block "if body") depth ctx
  let more : Descent (Option Unit) := do
    if ← check .kwElif then pure (some ()) else pure none
  let elifs ← loop more (fun clauses _ => do
    pure ((← elifClause go depth ctx) :: clauses)) rounds []
  let otherwise ←
    if ← accept .kwElse then some <$> go _ (.block "else body") depth ctx else pure none
  pure (.ifElse condition body elifs.reverse otherwise (← spanFrom keyword))

/-- A `while` loop. -/
def whileStatement : Descent Stmt := do
  let keyword ← advance
  let condition ← go _ (.parenthesized "while") depth ctx
  let body ← go _ (.loopBody "while body") depth ctx
  pure (.whileLoop condition body (← spanFrom keyword))

/-- What starts a `for` loop. -/
def forStart : Descent (Option Simple) := do
  if ← check .kwVar then some <$> go _ .varDeclaration depth ctx
  else if ← check .kwConst then some <$> go _ .constDeclaration depth ctx
  else if ← check .semicolon then pure none
  else some <$> go _ .expressionStatement depth ctx

/-- An expression that may be missing before a closing kind. -/
def optionalBefore (close : TokenKind) : Descent (Option Expr) := do
  if ← check close then pure none else some <$> go _ .expression depth ctx

/-- A `for` loop. -/
def forStatement : Descent Stmt := do
  let keyword ← advance
  let _ ← expect .leftParen "'(' after 'for'"
  let start ← forStart go depth ctx
  let _ ← expect .semicolon "';' after for-loop initializer"
  let condition ← optionalBefore go depth ctx .semicolon
  let _ ← expect .semicolon "';' after for-loop condition"
  let update ← optionalBefore go depth ctx .rightParen
  let _ ← expect .rightParen "')' after for-loop clauses"
  let body ← go _ (.loopBody "for body") depth ctx
  pure (.forLoop start condition update body (← spanFrom keyword))

/-- What a `return` gives back; nothing where the statement ends at once. -/
def returnValue : Descent (Option Expr) := do
  if (← check .semicolon) || (← atClose) then pure none else some <$> go _ .expression depth ctx

/-- A `return`. -/
def returnStatement : Descent Stmt := do
  let keyword ← advance
  if ctx.inFunction then
    let argument ← returnValue go depth ctx
    terminated (.ret argument (← spanFrom keyword))
  else failAt keyword .returnOutside

/-- A `try` statement. -/
def tryStatement : Descent Stmt := do
  let keyword ← advance
  let body ← go _ (.block "try body") depth ctx
  let _ ← expect .kwCatch "'catch' after try block"
  let _ ← expect .leftParen "'(' after 'catch'"
  let param ← ident "catch variable name"
  let _ ← expect .rightParen "')' after catch variable"
  let handler ← go _ (.block "catch body") depth ctx
  pure (.tryCatch body param handler (← spanFrom keyword))

/-- A `throw` statement. -/
def throwStatement : Descent Stmt := do
  let keyword ← advance
  let value ← go _ .expression depth ctx
  terminated (.throw value (← spanFrom keyword))

/-- A statement that declares nothing. -/
def statement : Descent Stmt := do
  match (← peek).kind with
  | .kwIf => go _ .ifStatement depth ctx
  | .kwWhile => go _ .whileStatement depth ctx
  | .kwFor => go _ .forStatement depth ctx
  | .kwBreak => go _ .breakStatement depth ctx
  | .kwContinue => go _ .continueStatement depth ctx
  | .kwReturn => go _ .returnStatement depth ctx
  | .kwTry => go _ .tryStatement depth ctx
  | .kwThrow => go _ .throwStatement depth ctx
  | .leftBrace => .block <$> go _ (.block "block") depth ctx
  | _ => do terminated (.simple (← go _ .expressionStatement depth ctx))

/-- A declaration or any other statement. -/
def anyDeclaration : Descent Stmt := do
  if ← check .kwClass then .cls <$> go _ .classDeclaration depth ctx
  else if ← check .kwFunc then .func <$> go _ (.functionDeclaration "function") depth ctx
  else if ← check .kwVar then terminated (.simple (← go _ .varDeclaration depth ctx))
  else if ← check .kwConst then terminated (.simple (← go _ .constDeclaration depth ctx))
  else go _ .statement depth ctx

end

/-! ## Calls -/

/-- What a rule does, given how it calls others. -/
def body (rounds : Nat) (go : Caller) : Caller
  | _, .declaration, depth, ctx => nested depth fun depth => go _ .anyDeclaration depth ctx
  | _, .anyDeclaration, depth, ctx => anyDeclaration go depth ctx
  | _, .classDeclaration, depth, ctx => classDeclaration rounds go depth ctx
  | _, .functionDeclaration what, depth, ctx => functionDeclaration rounds go depth ctx what
  | _, .varDeclaration, depth, ctx => varDeclaration go depth ctx
  | _, .constDeclaration, depth, ctx => constDeclaration go depth ctx
  | _, .statement, depth, ctx => statement go depth ctx
  | _, .ifStatement, depth, ctx => ifStatement rounds go depth ctx
  | _, .whileStatement, depth, ctx => whileStatement go depth ctx
  | _, .forStatement, depth, ctx => forStatement go depth ctx
  | _, .breakStatement, _, ctx => lift (breakStmt ctx)
  | _, .continueStatement, _, ctx => lift (continueStmt ctx)
  | _, .returnStatement, depth, ctx => returnStatement go depth ctx
  | _, .tryStatement, depth, ctx => tryStatement go depth ctx
  | _, .throwStatement, depth, ctx => throwStatement go depth ctx
  | _, .block what, depth, ctx => block rounds go depth ctx what
  | _, .loopBody what, depth, ctx => go _ (.block what) depth { ctx with inLoop := true }
  | _, .parenthesized keyword, depth, ctx => parenthesized go depth ctx keyword
  | _, .expressionStatement, depth, ctx => expressionStatement go depth ctx
  | _, .expression, depth, ctx => nested depth fun depth => go _ .assignment depth ctx
  | _, .assignment, depth, ctx => assignment go depth ctx
  | _, .logicOr, depth, ctx => logical rounds .pipePipe .or (go _ .logicAnd depth ctx)
  | _, .logicAnd, depth, ctx => logical rounds .andAnd .and (go _ .equality depth ctx)
  | _, .equality, depth, ctx =>
    binary rounds [.equalEqual, .bangEqual] (go _ .comparison depth ctx)
  | _, .comparison, depth, ctx =>
    binary rounds [.less, .lessEqual, .greater, .greaterEqual] (go _ .term depth ctx)
  | _, .term, depth, ctx => binary rounds [.plus, .minus] (go _ .factor depth ctx)
  | _, .factor, depth, ctx => binary rounds [.star, .slash, .percent] (go _ .unary depth ctx)
  | _, .unary, depth, ctx => unary go depth ctx
  | _, .call, depth, ctx => call rounds go depth ctx
  | _, .primary, depth, ctx => primary rounds go depth ctx

/-- A call on a stack with a number of frames left. The call takes one of them. -/
def run (rounds : Nat) : Nat → Caller
  | 0, _, _, _, _ => throw .stackFull
  | frames + 1, α, c, depth, ctx => body rounds (run rounds frames) α c depth ctx

/-- Declarations up to the end of input. -/
def program (rounds frames : Nat) : Descent Program := do
  let start ← peek
  let more : Descent (Option Unit) := do
    if ← check .endOfInput then pure none else pure (some ())
  let body ← loop more (fun body _ => do
    pure ((← run rounds frames _ .declaration 0 .top) :: body)) rounds []
  let finish ← peek
  pure ⟨body.reverse, some ⟨start.pos, finish.pos⟩⟩

/-- The program that tokens form, read with limited loops and on a stack of limited height. -/
def ofTokens (rounds frames : Nat) (tokens : List Token) : Except Stop Program := do
  let (p, _) ← program rounds frames (Input.ofStream ⟨tokens, none⟩)
  pure p

end Descent

end Tern
