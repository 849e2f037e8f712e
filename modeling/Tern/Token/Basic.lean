import Tern.Source.Position

/-!
# Tokens

The kinds of token, the text by which each kind is known, and how a token is named in an
error.

* `TokenKind.text` is the name of a kind; `TokenKind.ofText?` finds the kind of a name;
* `TokenKind.ofWord` tells the keywords from the other words;
* `Token.describe` is the name of a token in a message.
-/

namespace Tern

/-- The kinds of token. -/
inductive TokenKind where
  | leftParen | rightParen | leftBrace | rightBrace | leftBracket | rightBracket
  | comma | dot | semicolon | minus | plus | slash | star | percent
  | bang | equal | less | greater
  | bangEqual | equalEqual | lessEqual | greaterEqual | andAnd | pipePipe
  | identifier | string | number
  | kwVar | kwConst | kwFunc | kwIf | kwElif | kwElse | kwWhile | kwFor | kwBreak | kwContinue
  | kwReturn | kwClass | kwTry | kwCatch | kwThrow | kwThis | kwSuper | kwTrue | kwFalse | kwNull
  | endOfInput
deriving DecidableEq, Repr, Inhabited

namespace TokenKind

/-- The text of a kind: the lexeme of symbols and keywords, a description of the others. -/
def text : TokenKind → String
  | leftParen => "(" | rightParen => ")"
  | leftBrace => "\x7b" | rightBrace => "\x7d"
  | leftBracket => "[" | rightBracket => "]"
  | comma => "," | dot => "." | semicolon => ";"
  | minus => "-" | plus => "+" | slash => "/" | star => "*" | percent => "%"
  | bang => "!" | equal => "=" | less => "<" | greater => ">"
  | bangEqual => "!=" | equalEqual => "==" | lessEqual => "<=" | greaterEqual => ">="
  | andAnd => "&&" | pipePipe => "||"
  | identifier => "identifier" | string => "string" | number => "number"
  | kwVar => "var" | kwConst => "const" | kwFunc => "func"
  | kwIf => "if" | kwElif => "elif" | kwElse => "else"
  | kwWhile => "while" | kwFor => "for" | kwBreak => "break" | kwContinue => "continue"
  | kwReturn => "return" | kwClass => "class"
  | kwTry => "try" | kwCatch => "catch" | kwThrow => "throw"
  | kwThis => "this" | kwSuper => "super"
  | kwTrue => "true" | kwFalse => "false" | kwNull => "null"
  | endOfInput => "end of input"

/-- The keywords. -/
def keywords : List TokenKind :=
  [kwVar, kwConst, kwFunc, kwIf, kwElif, kwElse, kwWhile, kwFor, kwBreak, kwContinue, kwReturn,
    kwClass, kwTry, kwCatch, kwThrow, kwThis, kwSuper, kwTrue, kwFalse, kwNull]

/-- The kinds that are neither keywords nor words. -/
def symbols : List TokenKind :=
  [leftParen, rightParen, leftBrace, rightBrace, leftBracket, rightBracket, comma, dot,
    semicolon, minus, plus, slash, star, percent, bang, equal, less, greater, bangEqual,
    equalEqual, lessEqual, greaterEqual, andAnd, pipePipe]

/-- Every kind. -/
def all : List TokenKind :=
  symbols ++ [identifier, string, number] ++ keywords ++ [endOfInput]

/-- The kind with a given text. -/
def ofText? (s : String) : Option TokenKind :=
  all.find? fun k => k.text == s

/-- The kind of a word: a keyword, or else an identifier. -/
def ofWord (s : String) : TokenKind :=
  (keywords.find? fun k => k.text == s).getD identifier

end TokenKind

/-- What a literal token stands for. -/
inductive Literal where
  | number (value : Float)
  | text (value : String)

/-- A token: its kind, its text, where it starts and, for literals, what it stands for. -/
structure Token where
  kind : TokenKind
  lexeme : String
  pos : Position
  literal : Option Literal

namespace Token

/-- How messages name a token. -/
def describe (t : Token) : String :=
  match t.kind with
  | .endOfInput => "end of input"
  | .identifier => "identifier '" ++ t.lexeme ++ "'"
  | .number => "number " ++ t.lexeme
  | .string => "string " ++ t.lexeme
  | _ => "'" ++ t.lexeme ++ "'"

/-- The end of input at a position. -/
def eof (pos : Position) : Token :=
  ⟨.endOfInput, "", pos, none⟩

/-- Where a token ends, taken to lie on the line where it starts. -/
def stop (t : Token) : Position :=
  ⟨t.pos.line, t.pos.column + Text.unitLength t.lexeme⟩

end Token

end Tern
