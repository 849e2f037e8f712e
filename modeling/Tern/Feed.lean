import Tern.Text.Utf8

/-!
# Reading lines

Input comes byte by byte. An attempt to read a byte may find that none is ready yet, that the
input has ended, or that reading fails. A line ends at a line feed or with the input; the bytes
of a line are decoded together.

* `Feed.readLine` reads one line, pausing whenever nothing is ready;
* `Feed.readLines` reads all lines there are.
-/

namespace Tern

/-- What an attempt to read one byte yields. -/
inductive Attempt where
  | byte (value : Nat)
  | notReady
  | ended
  | failed (message : String)
deriving DecidableEq, Repr

/-- The attempts to come. After the last one the input is at its end. -/
abbrev Feed := List Attempt

/-- How reading a line went: the line, nothing at the end of input, or the failure; the number
of pauses; and the attempts that are left. -/
structure LineRead where
  line : Except String (Option String)
  pauses : Nat
  rest : Feed

namespace Feed

/-- The byte that ends a line. -/
def lineFeed : Nat := 10

/-- A line that ended in a line feed. One carriage return before it belongs to the end. -/
def endedLine (bytes : List Nat) : String :=
  let cs := (Text.Utf8.decode bytes).toList
  String.ofList (if cs.getLast? = some '\r' then cs.dropLast else cs)

/-- What stands before the end of input, if anything. -/
def lastLine (bytes : List Nat) : Option String :=
  if bytes = [] then none else some (Text.Utf8.decode bytes)

/-- Reads on after the bytes read so far, the last of them first. -/
def readOn (bytes : List Nat) (pauses : Nat) : Feed → LineRead
  | [] => ⟨.ok (lastLine bytes.reverse), pauses, []⟩
  | .ended :: rest => ⟨.ok (lastLine bytes.reverse), pauses, rest⟩
  | .notReady :: rest => readOn bytes (pauses + 1) rest
  | .failed message :: rest => ⟨.error message, pauses, rest⟩
  | .byte b :: rest =>
    if b = lineFeed then ⟨.ok (some (endedLine bytes.reverse)), pauses, rest⟩
    else readOn (b :: bytes) pauses rest

/-- Reads a line. -/
def readLine (feed : Feed) : LineRead :=
  readOn [] 0 feed

/-- Reads at most `count` lines, up to the first that is not there. -/
def readUpTo : Nat → Feed → List String
  | 0, _ => []
  | count + 1, feed =>
    match readLine feed with
    | ⟨.ok (some line), _, rest⟩ => line :: readUpTo count rest
    | _ => []

/-- All lines of an input. -/
def readLines (feed : Feed) : List String :=
  readUpTo feed.length feed

/-- Input in which every byte is ready. -/
def ofBytes (bytes : List Nat) : Feed :=
  bytes.map .byte

end Feed

end Tern
