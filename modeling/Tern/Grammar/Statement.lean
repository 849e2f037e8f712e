import Tern.Grammar.Expression

/-!
# Statements and programs

The grammar of statements, the tower of levels that bounds nesting, and whole programs.

* `Grammar.level` is the tower: with no room left every parser of it refuses;
* `Program.ofStream?` parses tokens, `Program.parse?` a source text.
-/

namespace Tern

namespace Grammar

open Tern.Parser

/-- Ends a simple statement: a semicolon, which may be left out before a closing brace or the
end of input. -/
def terminated {α : Type} (a : α) : Parser α := do
  if ← accept .semicolon then pure a
  else if ← atClose then pure a
  else failAt (← peek) (.unexpected "';'")

/-- Statements in braces. -/
def block (inner : Level) (ctx : Context) (what : String) : Parser Block := do
  let opening ← expect .leftBrace ("'\x7b' before " ++ what)
  let body ← untilClose (inner.declaration ctx)
  let _ ← expect .rightBrace ("'\x7d' after " ++ what)
  pure ⟨body, ← spanFrom opening⟩

/-- The body of a loop. -/
def loopBody (inner : Level) (ctx : Context) (what : String) : Parser Block :=
  block inner { ctx with inLoop := true } what

/-- A condition in parentheses after a keyword. -/
def parenthesized (inner : Level) (ctx : Context) (keyword : String) : Parser Expr := do
  let _ ← expect .leftParen ("'(' after '" ++ keyword ++ "'")
  let condition ← inner.expression ctx
  let _ ← expect .rightParen ("')' after " ++ keyword ++ " condition")
  pure condition

/-! ## Declarations -/

/-- A parameter, which must differ from those before it. -/
def param (before : List Ident) : Parser Ident := do
  let id ← ident "parameter name"
  if before.any fun other => other.name = id.name then
    failAt (← previous) (.duplicateParam id.name)
  else pure id

/-- A function (`what` is "function") or a method (`what` is "method"). -/
def funcDef (inner : Level) (ctx : Context) (what : String) : Parser FuncDef := do
  let keyword ← advance
  let id ← ident (what ++ " name")
  let _ ← expect .leftParen ("'(' after " ++ what ++ " name")
  let params ← commaSeparated .rightParen param
  let _ ← expect .rightParen "')' after parameters"
  let body ← block inner { ctx with inFunction := true, inLoop := false } (what ++ " body")
  pure ⟨id, params, body, ← spanFrom keyword⟩

/-- The superclass of a class, if one is named. -/
def superclass (id : Ident) : Parser (Option Ident) := do
  if ← accept .less then
    let parent ← ident "superclass name"
    if parent.name = id.name then failAt (← previous) (.selfInheritance id.name)
    else pure (some parent)
  else pure none

/-- A method of a class. -/
def method (inner : Level) (ctx : Context) : Parser FuncDef := do
  let t ← peek
  if t.kind = .kwFunc then funcDef inner ctx "method"
  else failAt t (.unexpected "method declaration")

/-- A class. -/
def classDef (inner : Level) (ctx : Context) : Parser ClassDef := do
  let keyword ← advance
  let id ← ident "class name"
  let parent ← superclass id
  let _ ← expect .leftBrace "'\x7b' before class body"
  let methods ← untilClose (method inner { ctx with enclosing := some parent.isSome })
  let _ ← expect .rightBrace "'\x7d' after class body"
  pure ⟨id, parent, methods, ← spanFrom keyword⟩

/-- A variable. -/
def varDecl (inner : Level) (ctx : Context) : Parser Simple := do
  let keyword ← advance
  let id ← ident "variable name"
  let value ← if ← accept .equal then some <$> inner.expression ctx else pure none
  pure (.var id value (← spanFrom keyword))

/-- A constant. -/
def constDecl (inner : Level) (ctx : Context) : Parser Simple := do
  let keyword ← advance
  let id ← ident "constant name"
  let _ ← expect .equal ("'=' after constant name '" ++ id.name ++ "'")
  let value ← inner.expression ctx
  pure (.const id value (← spanFrom keyword))

/-- An expression as a statement. -/
def exprStmt (inner : Level) (ctx : Context) : Parser Simple := do
  let start ← peek
  let e ← inner.expression ctx
  pure (.expr e (← spanFrom start))

/-! ## Control flow -/

/-- An `elif` arm. -/
def elifClause (inner : Level) (ctx : Context) : Parser ElifClause := do
  let keyword ← advance
  let condition ← parenthesized inner ctx "elif"
  let body ← block inner ctx "elif body"
  pure ⟨condition, body, ← spanFrom keyword⟩

/-- The `elif` arms. -/
def elifClauses (inner : Level) (ctx : Context) : Parser (List ElifClause) := do
  let more : Parser (Option Unit) := do
    if ← check .kwElif then pure (some ()) else pure none
  let clauses ← chain more (fun clauses _ => do
    pure ((← elifClause inner ctx) :: clauses)) []
  pure clauses.reverse

/-- An `if` statement. -/
def ifStmt (inner : Level) (ctx : Context) : Parser Stmt := do
  let keyword ← advance
  let condition ← parenthesized inner ctx "if"
  let body ← block inner ctx "if body"
  let elifs ← elifClauses inner ctx
  let otherwise ←
    if ← accept .kwElse then some <$> block inner ctx "else body" else pure none
  pure (.ifElse condition body elifs otherwise (← spanFrom keyword))

/-- A `while` loop. -/
def whileStmt (inner : Level) (ctx : Context) : Parser Stmt := do
  let keyword ← advance
  let condition ← parenthesized inner ctx "while"
  let body ← loopBody inner ctx "while body"
  pure (.whileLoop condition body (← spanFrom keyword))

/-- What starts a `for` loop. -/
def forStart (inner : Level) (ctx : Context) : Parser (Option Simple) := do
  match (← peek).kind with
  | .kwVar => some <$> varDecl inner ctx
  | .kwConst => some <$> constDecl inner ctx
  | .semicolon => pure none
  | _ => some <$> exprStmt inner ctx

/-- An expression that may be missing before a closing kind. -/
def optionalBefore (inner : Level) (ctx : Context) (close : TokenKind) :
    Parser (Option Expr) := do
  if ← check close then pure none else some <$> inner.expression ctx

/-- A `for` loop. -/
def forStmt (inner : Level) (ctx : Context) : Parser Stmt := do
  let keyword ← advance
  let _ ← expect .leftParen "'(' after 'for'"
  let start ← forStart inner ctx
  let _ ← expect .semicolon "';' after for-loop initializer"
  let condition ← optionalBefore inner ctx .semicolon
  let _ ← expect .semicolon "';' after for-loop condition"
  let update ← optionalBefore inner ctx .rightParen
  let _ ← expect .rightParen "')' after for-loop clauses"
  let body ← loopBody inner ctx "for body"
  pure (.forLoop start condition update body (← spanFrom keyword))

/-- A `break`, which needs a loop of the same function around it. -/
def breakStmt (ctx : Context) : Parser Stmt := do
  let keyword ← advance
  if ctx.inLoop then terminated (.breakLoop (← spanFrom keyword))
  else failAt keyword .breakOutside

/-- A `continue`, which needs a loop of the same function around it. -/
def continueStmt (ctx : Context) : Parser Stmt := do
  let keyword ← advance
  if ctx.inLoop then terminated (.continueLoop (← spanFrom keyword))
  else failAt keyword .continueOutside

/-- What a `return` gives back; nothing where the statement ends at once. -/
def returnValue (inner : Level) (ctx : Context) : Parser (Option Expr) := do
  if ← check .semicolon then pure none
  else if ← atClose then pure none
  else some <$> inner.expression ctx

/-- A `return`, which needs a function around it. -/
def returnStmt (inner : Level) (ctx : Context) : Parser Stmt := do
  let keyword ← advance
  if ctx.inFunction then
    let argument ← returnValue inner ctx
    terminated (.ret argument (← spanFrom keyword))
  else failAt keyword .returnOutside

/-- A `try` statement. -/
def tryStmt (inner : Level) (ctx : Context) : Parser Stmt := do
  let keyword ← advance
  let body ← block inner ctx "try body"
  let _ ← expect .kwCatch "'catch' after try block"
  let _ ← expect .leftParen "'(' after 'catch'"
  let param ← ident "catch variable name"
  let _ ← expect .rightParen "')' after catch variable"
  let handler ← block inner ctx "catch body"
  pure (.tryCatch body param handler (← spanFrom keyword))

/-- A `throw` statement. -/
def throwStmt (inner : Level) (ctx : Context) : Parser Stmt := do
  let keyword ← advance
  let value ← inner.expression ctx
  terminated (.throw value (← spanFrom keyword))

/-- A declaration or any other statement. -/
def declaration (inner : Level) (ctx : Context) : Parser Stmt := do
  match (← peek).kind with
  | .kwClass => .cls <$> classDef inner ctx
  | .kwFunc => .func <$> funcDef inner ctx "function"
  | .kwVar => do terminated (.simple (← varDecl inner ctx))
  | .kwConst => do terminated (.simple (← constDecl inner ctx))
  | .kwIf => ifStmt inner ctx
  | .kwWhile => whileStmt inner ctx
  | .kwFor => forStmt inner ctx
  | .kwBreak => breakStmt ctx
  | .kwContinue => continueStmt ctx
  | .kwReturn => returnStmt inner ctx
  | .kwTry => tryStmt inner ctx
  | .kwThrow => throwStmt inner ctx
  | .leftBrace => .block <$> block inner ctx "block"
  | _ => do terminated (.simple (← exprStmt inner ctx))

/-! ## Levels and programs -/

/-- Refuses to go further in. -/
def tooNested {α : Type} : Parser α := do
  failAt (← peek) .tooNested

/-- The parsers with room for a number of further levels. -/
def level : Nat → Level
  | 0 => ⟨fun _ => tooNested, fun _ => tooNested, fun _ => tooNested⟩
  | room + 1 =>
    let inner := level room
    ⟨assignment inner, unary inner, declaration inner⟩

/-- Declarations up to the end of input. -/
def program : Parser Program := do
  let start ← peek
  let more : Parser (Option Unit) := do
    if ← check .endOfInput then pure none else pure (some ())
  let outermost := level maxNesting
  let body ← chain more (fun body _ => do
    pure ((← outermost.declaration .top) :: body)) []
  let finish ← peek
  pure ⟨body.reverse, some ⟨start.pos, finish.pos⟩⟩

end Grammar

/-- The program that tokens form. -/
def Program.ofStream? (s : TokenStream) : Except SyntaxError Program := do
  let (p, _) ← Grammar.program (Input.ofStream s)
  pure p

/-- The program that a source text spells. -/
def Program.parse? (source : String) : Except SyntaxError Program :=
  Program.ofStream? (TokenStream.ofSource source)

/-- Whether a text fails to be a program only because it stops early. -/
def isIncomplete (source : String) : Bool :=
  match Program.parse? source with
  | .ok _ => false
  | .error (.parse e) => e.found == "end of input"
  | .error (.lex e) =>
    match e.cause with
    | .openString | .openComment => true
    | .stray _ => false

end Tern
