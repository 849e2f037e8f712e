import Tern.Text.Lines

/-!
# Paths

Absolute paths, and what can be told from the text of a path alone. A path is the list of
names that lead to it, the innermost first, so that a path's parent is its tail.

* `Path.resolve` makes a text absolute;
* `PathText.baseName` and `PathText.withExtension` work on texts.
-/

namespace Tern

/-- An absolute path: its names, the innermost first. -/
abbrev Path := List String

namespace Path

/-- The names of a path text, which slashes divide. -/
def names (text : String) : List String :=
  ((Text.split (· = '/') text.toList).map String.ofList).filter (· ≠ "")

/-- Goes one step: `.` stays, `..` leads to the parent. -/
def step (p : Path) (name : String) : Path :=
  if name = "." then p
  else if name = ".." then p.tail
  else name :: p

/-- Whether a path text is absolute. -/
def isAbsolute (text : String) : Bool :=
  text.toList.head? = some '/'

/-- Whether a path text ends with a slash, which asks for a directory. -/
def endsInSlash (text : String) : Bool :=
  text.toList.getLast? = some '/'

/-- Where a path text starts, seen from a directory. -/
def start (directory : Path) (text : String) : Path :=
  if isAbsolute text then [] else directory

/-- The absolute path of a text, seen from a directory. -/
def resolve (directory : Path) (text : String) : Path :=
  (names text).foldl step (start directory text)

/-- How a path is written. -/
def text (p : Path) : String :=
  "/" ++ "/".intercalate p.reverse

end Path

/-! ## Texts of paths -/

namespace PathText

/-- Goes one step along a relative path, of which the innermost name comes first. A leading
`..` stays. -/
def step (p : List String) (name : String) : List String :=
  if name = "." then p
  else if name = ".." then
    match p with
    | [] => [".."]
    | last :: above => if last = ".." then ".." :: p else above
  else name :: p

/-- The shortest text of the same path. -/
def normalize (text : String) : String :=
  if Path.isAbsolute text then (Path.resolve [] text).text
  else
    match (Path.names text).foldl step [] with
    | [] => "."
    | p => "/".intercalate p.reverse

/-- What stands before the last name, and that name; slashes at the end do not count. -/
def splitLast (text : String) : List Char × List Char :=
  let cs := text.toList.reverse.dropWhile (· = '/')
  ((cs.dropWhile (· ≠ '/')).reverse, (cs.takeWhile (· ≠ '/')).reverse)

/-- The last name. -/
def baseName (text : String) : String :=
  String.ofList (splitLast text).2

/-- A name without its extension, which starts at the last point. A name that starts with its
only point has none. -/
def stem (name : List Char) : List Char :=
  if name = ['.', '.'] then name
  else
    match name.reverse.dropWhile (· ≠ '.') with
    | [] => name
    | [_] => name
    | _ :: rest => rest.reverse

/-- The path with another extension. -/
def withExtension (text extension : String) : String :=
  let (directory, name) := splitLast text
  normalize (String.ofList directory ++ String.ofList (stem name) ++ extension)

end PathText

end Tern
