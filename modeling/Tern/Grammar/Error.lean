import Tern.Token.Lexer

/-!
# Syntax errors

Why a text is not a program: it cannot be cut into tokens, or the tokens do not form one. A
`ParseCause` is the reason together with what was wanted; the error adds what was found and
where.
-/

namespace Tern

/-- The greatest depth to which declarations and expressions may nest. -/
def maxNesting : Nat := 200

/-- Why tokens do not form a program. -/
inductive ParseCause where
  | unexpected (wanted : String)
  | selfInheritance (name : String)
  | duplicateParam (name : String)
  | breakOutside
  | continueOutside
  | returnOutside
  | thisOutside
  | superOutside
  | superWithoutSuperclass
  | badTarget
  | tooNested
deriving DecidableEq, Repr

/-- What would have been accepted. -/
def ParseCause.expected : ParseCause → String
  | unexpected wanted => wanted
  | selfInheritance _ => "a different superclass"
  | duplicateParam _ => "a unique parameter name"
  | breakOutside => "'break' inside a loop"
  | continueOutside => "'continue' inside a loop"
  | returnOutside => "'return' inside a function"
  | thisOutside => "'this' inside a method"
  | superOutside => "'super' inside a method"
  | superWithoutSuperclass => "'super' in a subclass"
  | badTarget => "assignable target"
  | tooNested => "shallower nesting"

/-- Tokens that do not form a program: the reason, the token found and where it stands. -/
structure ParseError where
  cause : ParseCause
  found : String
  pos : Position
deriving DecidableEq, Repr

namespace ParseError

/-- What would have been accepted. -/
def expected (e : ParseError) : String := e.cause.expected

/-- The message of a parse error. -/
def message (e : ParseError) : String :=
  match e.cause with
  | .unexpected wanted => "Expected " ++ wanted ++ " but found " ++ e.found
  | .selfInheritance name => "A class can't inherit from itself ('" ++ name ++ "')"
  | .duplicateParam name => "Duplicate parameter '" ++ name ++ "'"
  | .breakOutside => "'break' outside of a loop"
  | .continueOutside => "'continue' outside of a loop"
  | .returnOutside => "'return' outside of a function"
  | .thisOutside => "'this' outside of a class method"
  | .superOutside => "'super' outside of a class method"
  | .superWithoutSuperclass => "'super' used in a class with no superclass"
  | .badTarget => "Invalid assignment target"
  | .tooNested => "Nesting exceeds " ++ toString maxNesting ++ " levels"

end ParseError

/-- Why a text is not a program. -/
inductive SyntaxError where
  | lex (error : LexError)
  | parse (error : ParseError)
deriving DecidableEq, Repr

end Tern
