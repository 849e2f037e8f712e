/-!
# Lines

Cutting texts at separators.

* `Text.split` cuts at every separator, so that empty pieces stay;
* `Text.lines` cuts a text into lines, each ended by a line feed, a carriage return, both, or
  one of the two separators of Unicode; what stands after the last end is a line if it is not
  empty.
-/

namespace Tern.Text

/-- Cuts a text at every separator. -/
def split (isSeparator : Char → Bool) : List Char → List (List Char)
  | [] => [[]]
  | c :: cs =>
    if isSeparator c then [] :: split isSeparator cs
    else
      match split isSeparator cs with
      | [] => [[c]]
      | piece :: pieces => (c :: piece) :: pieces

/-- The characters that end a line, a carriage return before a line feed aside. -/
def isLineEnd (c : Char) : Bool :=
  c = '\n' || c = '\r' || c = '\u2028' || c = '\u2029'

/-- Cuts a text into lines; `current` is the line at hand, the last character first. -/
def linesFrom (current : List Char) : List Char → List (List Char)
  | [] => if current = [] then [] else [current.reverse]
  | '\r' :: '\n' :: cs => current.reverse :: linesFrom [] cs
  | c :: cs =>
    if isLineEnd c then current.reverse :: linesFrom [] cs else linesFrom (c :: current) cs

/-- The lines of a text. -/
def lines (text : String) : List String :=
  (linesFrom [] text.toList).map String.ofList

end Tern.Text
