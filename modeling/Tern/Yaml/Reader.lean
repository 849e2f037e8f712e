import Tern.Text.Lines
import Tern.Text.Units
import Tern.Yaml.Basic

/-!
# Reading YAML

The documents read here are those of a configuration file: a mapping, a list or a scalar, one
entry a line, with comments and blank lines, and with markers at its start and its end. The
value of an entry stands on its line, or indented on the lines below. Scalars are plain,
single-quoted or double-quoted; lists and mappings may also be written in brackets.

What does not follow these rules has no value, nor has a text of more than one document. This is
less than the format has; configurations are loaded by any reader, of which this is one.

* `Yaml.parse?` reads a document.
-/

namespace Tern.Yaml

/-- The blanks inside a line. -/
def isSpace (c : Char) : Bool := c = ' ' || c = '\t'

/-- A text without the blanks in front of it. -/
def skipSpace (cs : List Char) : List Char := cs.dropWhile isSpace

/-- A text without the blanks at its end. -/
def dropEnd (cs : List Char) : List Char := (cs.reverse.dropWhile isSpace).reverse

/-- Whether nothing but blanks and a comment is left on a line. -/
def isTail (cs : List Char) : Bool :=
  match cs with
  | [] => true
  | c :: _ =>
    isSpace c && (match skipSpace cs with
      | [] => true
      | d :: _ => d = '#')

/-! ## Quoted scalars -/

/-- What follows an opening single quote: the text and the rest after the closing one. A quote
is written twice inside. -/
def singleQuoted? : List Char → Option (List Char × List Char)
  | [] => none
  | '\x27' :: '\x27' :: cs => (singleQuoted? cs).map fun (s, rest) => ('\x27' :: s, rest)
  | '\x27' :: cs => some ([], cs)
  | c :: cs => (singleQuoted? cs).map fun (s, rest) => (c :: s, rest)

/-- The characters that have a short escape. -/
def escapes : List (Char × Char) :=
  [('0', '\x00'), ('a', '\x07'), ('b', '\x08'), ('e', '\x1b'), ('f', '\x0c'), ('n', '\n'),
    ('r', '\r'), ('t', '\t'), ('v', '\x0b'), ('N', '\u0085'), ('_', '\u00a0'), ('L', '\u2028'),
    ('P', '\u2029'), (' ', ' '), ('"', '"'), ('/', '/'), ('\\', '\\'), ('\t', '\t')]

/-- The number of digits of an escape by number. -/
def escapeWidth? : Char → Option Nat
  | 'x' => some 2
  | 'u' => some 4
  | 'U' => some 8
  | _ => none

/-- The code units of a character by number. -/
def unitsOf? (n : Nat) : Option (List Nat) :=
  if n < 0x10000 then some [n]
  else if n < 0x110000 then some (Text.encode (Char.ofNat n))
  else none

/-- The code units of an escape, given what follows the backslash, and the rest. -/
def escape? : List Char → Option (List Nat × List Char)
  | [] => none
  | c :: cs =>
    match escapes.lookup c with
    | some d => some (Text.encode d, cs)
    | none => do
      let width ← escapeWidth? c
      let digits := cs.take width
      if digits.length = width then
        let units ← unitsOf? (← natural? 16 digits)
        pure (units, cs.drop width)
      else none

/-- The code units that follow an opening double quote and the rest after the closing one,
given room for as many characters. -/
def doubleQuoted? : Nat → List Char → Option (List Nat × List Char)
  | 0, _ => none
  | _ + 1, [] => none
  | _ + 1, '"' :: cs => some ([], cs)
  | room + 1, '\\' :: cs => do
    let (units, cs) ← escape? cs
    let (s, rest) ← doubleQuoted? room cs
    pure (units ++ s, rest)
  | room + 1, c :: cs => (doubleQuoted? room cs).map fun (s, rest) => (Text.encode c ++ s, rest)

/-- A quoted scalar at the front of a text: its text, and the rest. -/
def quoted? : List Char → Option (List Char × List Char)
  | '"' :: cs =>
    (doubleQuoted? (cs.length + 1) cs).map fun (units, rest) => (Text.decodeUnits units, rest)
  | '\x27' :: cs => singleQuoted? cs
  | _ => none

/-- Whether a text begins with a quote. -/
def isQuoted : List Char → Bool
  | '"' :: _ | '\x27' :: _ => true
  | _ => false

/-! ## Plain scalars -/

/-- The characters that no plain scalar starts with. -/
def badStarts : List Char :=
  [',', '[', ']', '\x7b', '\x7d', '#', '&', '*', '!', '|', '>', '\x27', '"', '%', '@', '\x60']

/-- Cuts a text where a comment starts: at a number sign after a blank. -/
def beforeComment : List Char → List Char
  | [] => []
  | [c] => [c]
  | c :: d :: cs => if isSpace c && d = '#' then [] else c :: beforeComment (d :: cs)

/-- Cuts a text at the first colon that ends a key, which is one before a blank, before the end
or before what `ends` says. -/
def splitKey? (ends : Char → Bool) : List Char → Option (List Char × List Char)
  | [] => none
  | ':' :: [] => some ([], [])
  | ':' :: c :: cs =>
    if isSpace c || ends c then some ([], c :: cs)
    else (splitKey? ends (c :: cs)).map fun (k, rest) => (':' :: k, rest)
  | c :: cs => (splitKey? ends cs).map fun (k, rest) => (c :: k, rest)

/-- Whether a text starts with a mark that makes it something else than a plain scalar. A dash
and a question mark are marks before a blank, at the end or before what `ends` says. -/
def isMarked (ends : Char → Bool) : List Char → Bool
  | [] => false
  | c :: cs =>
    badStarts.contains c || ((c = '-' || c = '?') && (match cs with
      | [] => true
      | d :: _ => isSpace d || ends d))

/-- Nothing ends a scalar on a line outside brackets but the line. -/
def noEnd (_ : Char) : Bool := false

/-- The value of a plain scalar that takes up the rest of a line. It cannot hold a key. -/
def plain? (cs : List Char) : Option Yaml :=
  let s := dropEnd (beforeComment cs)
  if isMarked noEnd s || (splitKey? noEnd s).isSome then none else some (ofPlain s)

/-! ## Brackets -/

/-- The characters that end a plain scalar in brackets. -/
def isBracketMark (c : Char) : Bool :=
  c = ',' || c = '[' || c = ']' || c = '\x7b' || c = '\x7d'

/-- A plain scalar in brackets and the rest. -/
def bracketPlain (cs : List Char) : List Char × List Char :=
  let inside := (beforeComment cs).takeWhile (!isBracketMark ·)
  let count := match splitKey? isBracketMark cs with
    | some (key, _) => min key.length inside.length
    | none => inside.length
  (dropEnd (cs.take count), cs.drop count)

/-- A scalar in brackets and the rest. -/
def bracketScalar? (cs : List Char) : Option (Yaml × List Char) :=
  if isQuoted cs then (quoted? cs).map fun (s, rest) => (.string (String.ofList s), rest)
  else
    match bracketPlain cs with
    | ([], _) => none
    | (s, rest) => if isMarked isBracketMark cs then none else some (ofPlain s, rest)

mutual

/-- A value in brackets, or one inside them, and the rest. -/
def flow? : Nat → List Char → Option (Yaml × List Char)
  | 0, _ => none
  | room + 1, cs =>
    match skipSpace cs with
    | '[' :: cs => (flowItems? room cs).map fun (items, rest) => (.list items, rest)
    | '\x7b' :: cs => do
      let (entries, rest) ← flowEntries? room cs
      pure (← ofEntries? entries, rest)
    | cs => bracketScalar? cs

/-- The items of a list up to its closing bracket. A key with a value is a mapping. -/
def flowItems? : Nat → List Char → Option (List Yaml × List Char)
  | 0, _ => none
  | room + 1, cs =>
    match skipSpace cs with
    | ']' :: rest => some ([], rest)
    | cs => do
      let (item, rest) ← flow? room cs
      let (item, rest) ← match skipSpace rest with
        | ':' :: rest => do
          let (value, rest) ← flowValue? room rest
          pure (← ofEntries? [(item, value)], rest)
        | rest => pure (item, rest)
      match skipSpace rest with
      | ']' :: rest => pure ([item], rest)
      | ',' :: rest => do
        let (items, rest) ← flowItems? room rest
        pure (item :: items, rest)
      | _ => none

/-- The value after the colon of an entry; there may be none. -/
def flowValue? : Nat → List Char → Option (Yaml × List Char)
  | 0, _ => none
  | room + 1, cs =>
    match skipSpace cs with
    | ',' :: rest => some (.null, ',' :: rest)
    | ']' :: rest => some (.null, ']' :: rest)
    | '\x7d' :: rest => some (.null, '\x7d' :: rest)
    | cs => flow? room cs

/-- The entries of a mapping up to its closing bracket. -/
def flowEntries? : Nat → List Char → Option (List (Yaml × Yaml) × List Char)
  | 0, _ => none
  | room + 1, cs =>
    match skipSpace cs with
    | '\x7d' :: rest => some ([], rest)
    | cs => do
      let (key, rest) ← bracketScalar? cs
      let (value, rest) ← match skipSpace rest with
        | ':' :: rest => flowValue? room rest
        | rest => pure (.null, rest)
      match skipSpace rest with
      | '\x7d' :: rest => pure ([(key, value)], rest)
      | ',' :: rest => do
        let (entries, rest) ← flowEntries? room rest
        pure ((key, value) :: entries, rest)
      | _ => none

end

/-! ## Lines -/

/-- The value that takes up the rest of a line. -/
def inline? (cs : List Char) : Option Yaml :=
  let cs := skipSpace cs
  let whole (r : Option (Yaml × List Char)) : Option Yaml :=
    r.bind fun (v, rest) => if isTail rest then some v else none
  match cs with
  | [] => some .null
  | '#' :: _ => some .null
  | '[' :: _ | '\x7b' :: _ => whole (flow? (cs.length + 1) cs)
  | '"' :: _ | '\x27' :: _ =>
    whole ((quoted? cs).map fun (s, rest) => (.string (String.ofList s), rest))
  | cs => plain? cs

/-- A line with something on it: how many spaces it is indented by, whether tabs come after
them, and the text from there. -/
structure Line where
  indent : Nat
  tabbed : Bool
  text : List Char

/-- The line of a text, unless it has no more on it than a comment. -/
def Line.ofChars? (cs : List Char) : Option Line :=
  let body := skipSpace cs
  let indent := (cs.takeWhile (· = ' ')).length
  match body with
  | [] => none
  | '#' :: _ => none
  | body => some ⟨indent, indent + body.length < cs.length, body⟩

/-- A line without the carriage return in front of its line feed. -/
def dropReturn (cs : List Char) : List Char :=
  if cs.getLast? = some '\r' then cs.dropLast else cs

/-- The lines of a document that have more on them than a comment. No line feed ends the last
one. -/
def contentLines (text : List Char) : List Line :=
  let raw := Text.split (· = '\n') text
  (raw.dropLast.map dropReturn ++ raw.getLast?.toList).filterMap Line.ofChars?

/-- The greatest number of code units from the start of a key to its colon. -/
def maxKeyLength : Nat := 1024

/-- The key of a text, and what follows the colon. A key of no characters is null. -/
def keyed? (cs : List Char) : Option (Yaml × List Char) := do
  let (key, rest) ←
    if isQuoted cs then do
      let (key, rest) ← quoted? cs
      match skipSpace rest with
      | ':' :: rest =>
        if rest = [] || rest.head?.any isSpace then
          pure (Yaml.string (String.ofList key), rest)
        else none
      | _ => none
    else do
      let (key, rest) ← splitKey? noEnd cs
      if isMarked noEnd key || beforeComment key ≠ key then none
      else pure (ofPlain (dropEnd key), rest)
  if Text.unitCount (cs.take (cs.length - rest.length - 1)) ≤ maxKeyLength then pure (key, rest)
  else none

/-- What follows the dash of a list item. -/
def item? : List Char → Option (List Char)
  | '-' :: [] => some []
  | '-' :: c :: cs => if isSpace c then some (c :: cs) else none
  | _ => none

/-- Whether a line belongs to the entry above it: it is indented further, or it is an item of
its list. -/
def belongs (indent : Nat) (l : Line) : Bool :=
  indent < l.indent || (l.indent = indent && (item? l.text).isSome)

mutual

/-- The value of the lines of a block, all of them. -/
def block? : Nat → List Line → Option Yaml
  | 0, _ => none
  | _ + 1, [] => some .null
  | room + 1, l :: rest =>
    if (item? l.text).isSome then (items? room l.indent (l :: rest)).map .list
    else if (keyed? l.text).isSome then (entries? room l.indent (l :: rest)).bind ofEntries?
    else if rest.any fun r => (keyed? r.text).isSome then none
    else inline? (l.text ++ rest.flatMap fun r => ' ' :: r.text)

/-- The entries of a mapping whose keys are indented so far. Tabs do not indent. -/
def entries? : Nat → Nat → List Line → Option (List (Yaml × Yaml))
  | 0, _, _ => none
  | _ + 1, _, [] => some []
  | room + 1, indent, l :: rest =>
    if l.indent ≠ indent || l.tabbed then none
    else do
      let (key, text) ← keyed? l.text
      let value ← inline? text
      let (below, rest) := rest.span (belongs indent)
      let value ← match below, value with
        | [], v => some v
        | below, .null => block? room below
        | _, _ => none
      let others ← entries? room indent rest
      pure ((key, value) :: others)

/-- The items of a list whose dashes are indented so far. Tabs do not indent. -/
def items? : Nat → Nat → List Line → Option (List Yaml)
  | 0, _, _ => none
  | _ + 1, _, [] => some []
  | room + 1, indent, l :: rest =>
    if l.indent ≠ indent || l.tabbed then none
    else do
      let text ← item? l.text
      let (below, rest) := rest.span fun r => indent < r.indent
      let first := (Line.ofChars? text).toList.map fun f =>
        { f with indent := l.indent + (l.text.length - f.text.length) }
      let value ← block? room (first ++ below)
      let others ← items? room indent rest
      pure (value :: others)

end

/-! ## Documents -/

/-- What follows a marker on its line. A marker stands at the start of a line, alone or before
a blank. -/
def afterMarker? (marker : List Char) (l : Line) : Option (List Char) :=
  let rest := l.text.drop marker.length
  if l.indent = 0 && !l.tabbed && l.text.take marker.length = marker
    && (rest = [] || rest.head?.any isSpace) then some rest
  else none

/-- What follows the marker that starts a document. -/
def startMarker? (l : Line) : Option (List Char) := afterMarker? ['-', '-', '-'] l

/-- What follows the marker that ends a document. -/
def endMarker? (l : Line) : Option (List Char) := afterMarker? ['.', '.', '.'] l

/-- The value of the lines of a document, with the rest of the line of its marker in front.
No list or mapping starts there but in brackets. -/
def document? (room : Nat) (first : List Char) (lines : List Line) : Option Yaml :=
  match Line.ofChars? first with
  | none => block? room lines
  | some l =>
    if (item? l.text).isSome || (keyed? l.text).isSome then none
    else block? room (l :: lines)

/-- The lines in front of the end of a document, if only one document is there. -/
def single? (lines : List Line) : Option (List Line) :=
  let (body, rest) := lines.span fun l => (startMarker? l).isNone && (endMarker? l).isNone
  match rest with
  | [] => some body
  | l :: rest =>
    match endMarker? l with
    | some tail => if isTail tail && rest.isEmpty then some body else none
    | none => none

/-- A text without the byte order mark that may stand in front of it. -/
def dropByteOrderMark : List Char → List Char
  | '\ufeff' :: cs => cs
  | cs => cs

/-- The value of a document. -/
def parse? (text : String) : Option Yaml := do
  let room := 4 * text.length + 8
  let lines := contentLines (dropByteOrderMark text.toList)
  match lines with
  | [] => pure .null
  | l :: rest =>
    match startMarker? l with
    | some first => document? room first (← single? rest)
    | none => block? room (← single? lines)

end Tern.Yaml
