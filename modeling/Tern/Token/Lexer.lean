import Tern.Decimal.Numeral
import Tern.Token.Basic

/-!
# Lexing

A text is cut from left to right into pieces. What the next piece is depends on its first
character and what follows: `Piece.classify` tells layout and comments from lexemes, gives
lexemes their kind, and says how many further characters belong to the piece. `scan` strings
the pieces together and keeps the positions.

A text that cannot be cut to its end still yields the tokens before the trouble: a
`TokenStream` is the tokens and, if the text has trouble, the error after them.

* `Piece.classify` is the longest-piece rule;
* `TokenStream.ofSource` lexes a source.
-/

namespace Tern

/-- What can be wrong with a text. -/
inductive LexCause where
  | stray (c : Char)
  | openString
  | openComment
deriving DecidableEq, Repr

/-- A place where a text cannot be cut further. -/
structure LexError where
  cause : LexCause
  pos : Position
deriving DecidableEq, Repr

namespace LexError

/-- The character at which lexing stopped, cut to one code unit. -/
def character (e : LexError) : Char :=
  match e.cause with
  | .stray c => Text.firstUnit c
  | .openString => '"'
  | .openComment => '/'

/-- The message of a lexical error. -/
def message (e : LexError) : String :=
  match e.cause with
  | .stray c => "Unexpected character '" ++ String.singleton (Text.firstUnit c) ++ "'"
  | .openString => "Unterminated string literal"
  | .openComment => "Unterminated block comment"

end LexError

/-! ## Pieces -/

/-- Letters and the underscore begin words. -/
def isWordStart (c : Char) : Bool :=
  ('a' ≤ c && c ≤ 'z') || ('A' ≤ c && c ≤ 'Z') || c == '_'

/-- Digits, letters and the underscore continue words. -/
def isWordChar (c : Char) : Bool :=
  isWordStart c || isDigit c

/-- The blanks between tokens. -/
def isLayout (c : Char) : Bool :=
  c == ' ' || c == '\t' || c == '\r' || c == '\n'

/-- The piece that begins a text, with the number of characters it has after its first. -/
inductive Piece where
  | trivia (more : Nat)
  | lexeme (kind : TokenKind) (more : Nat)
  | stuck (cause : LexCause)
deriving DecidableEq, Repr

namespace Piece

/-- The length of the rest of a block comment, its closing mark included. -/
def commentLength? : List Char → Option Nat
  | '*' :: '/' :: _ => some 2
  | _ :: cs => (commentLength? cs).map (· + 1)
  | [] => none

/-- The length of the rest of a number after its first digit. A point counts only with a digit
after it. -/
def numberLength (cs : List Char) : Nat :=
  let whole := (cs.takeWhile isDigit).length
  match cs.drop whole with
  | '.' :: d :: rest =>
    if isDigit d then whole + 2 + (rest.takeWhile isDigit).length else whole
  | _ => whole

/-- A symbol that an equals sign makes longer. -/
def orEqual (short long : TokenKind) (cs : List Char) : Piece :=
  match cs with
  | '=' :: _ => lexeme long 1
  | _ => lexeme short 0

/-- A symbol that is its character written twice. -/
def doubled (kind : TokenKind) (c : Char) (cs : List Char) : Piece :=
  match cs with
  | d :: _ => if d = c then lexeme kind 1 else stuck (.stray c)
  | [] => stuck (.stray c)

/-- What a slash begins: a comment or a division sign. -/
def ofSlash (cs : List Char) : Piece :=
  match cs with
  | '/' :: _ => trivia (cs.takeWhile (· ≠ '\n')).length
  | '*' :: rest =>
    match commentLength? rest with
    | some n => trivia (n + 1)
    | none => stuck .openComment
  | _ => lexeme .slash 0

/-- What a double quote begins: a string that runs to the next double quote. -/
def ofQuote (cs : List Char) : Piece :=
  match cs.findIdx? (· == '"') with
  | some n => lexeme .string (n + 1)
  | none => stuck .openString

/-- What a word character, or any other character, begins. -/
def ofOther (c : Char) (cs : List Char) : Piece :=
  if isDigit c then lexeme .number (numberLength cs)
  else if isWordStart c then
    let word := cs.takeWhile isWordChar
    lexeme (.ofWord (String.ofList (c :: word))) word.length
  else stuck (.stray c)

/-- The longest piece that the text `c :: cs` begins with. -/
def classify (c : Char) (cs : List Char) : Piece :=
  if isLayout c then trivia 0
  else match c with
  | '(' => lexeme .leftParen 0
  | ')' => lexeme .rightParen 0
  | '\x7b' => lexeme .leftBrace 0
  | '\x7d' => lexeme .rightBrace 0
  | '[' => lexeme .leftBracket 0
  | ']' => lexeme .rightBracket 0
  | ',' => lexeme .comma 0
  | '.' => lexeme .dot 0
  | ';' => lexeme .semicolon 0
  | '-' => lexeme .minus 0
  | '+' => lexeme .plus 0
  | '*' => lexeme .star 0
  | '%' => lexeme .percent 0
  | '/' => ofSlash cs
  | '!' => orEqual .bang .bangEqual cs
  | '=' => orEqual .equal .equalEqual cs
  | '<' => orEqual .less .lessEqual cs
  | '>' => orEqual .greater .greaterEqual cs
  | '&' => doubled .andAnd c cs
  | '|' => doubled .pipePipe c cs
  | '"' => ofQuote cs
  | c => ofOther c cs

end Piece

/-! ## Streams -/

/-- The double that a number lexeme denotes. -/
def Token.numberOf (chars : List Char) : Float :=
  ((Decimal.ofNumeral? chars).getD ⟨false, 0, 0⟩).toFloat

/-- What a lexeme of a kind stands for; a string stands for the text between its quotes. -/
def Token.literalOf (kind : TokenKind) (chars : List Char) : Option Literal :=
  match kind with
  | .number => some (.number (Token.numberOf chars))
  | .string => some (.text (String.ofList chars.tail.dropLast))
  | _ => none

/-- The token of a lexeme. -/
def Token.ofLexeme (kind : TokenKind) (chars : List Char) (pos : Position) : Token :=
  ⟨kind, String.ofList chars, pos, literalOf kind chars⟩

/-- Tokens and the error, if any, that stands after the last of them. -/
structure TokenStream where
  tokens : List Token
  failure : Option LexError

namespace TokenStream

/-- Cuts a text, given the tokens before it (the last one first). -/
def scan (done : List Token) (pos : Position) : List Char → TokenStream
  | [] => ⟨(Token.eof pos :: done).reverse, none⟩
  | c :: cs =>
    match Piece.classify c cs with
    | .trivia more => scan done (pos.after (c :: cs.take more)) (cs.drop more)
    | .lexeme kind more =>
      let chars := c :: cs.take more
      scan (Token.ofLexeme kind chars pos :: done) (pos.after chars) (cs.drop more)
    | .stuck cause => ⟨done.reverse, some ⟨cause, pos⟩⟩
termination_by cs => cs.length
decreasing_by all_goals simp only [List.length_cons, List.length_drop]; omega

/-- The tokens of a source. They end with the end of input unless there is an error. -/
def ofSource (source : String) : TokenStream :=
  scan [] Position.first source.toList

end TokenStream

end Tern
