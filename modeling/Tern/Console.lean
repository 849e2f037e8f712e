import Tern.Feed

/-!
# The console

What a run has written, and where it takes its lines from: a list of lines, or bytes that are read
one by one from a `Feed`. Either side can fail. Reading fails where the feed does; a write fails
where the host refuses it. A failed write leaves the output as it is.

* `Console.readLine` reads a line;
* `Console.write` writes a text.
-/

namespace Tern

/-- Where lines come from. -/
inductive LineSource where
  | lines (rest : List String)
  | feed (rest : Feed)

/-- What was written, the input that is left, and how the writes to come go: each of them is
accepted or refused with a message. After the last one every write is accepted. -/
structure Console where
  output : String
  input : LineSource
  writes : List (Option String)

namespace Console

/-- A console that has these lines to read and accepts all writes. -/
def ofLines (lines : List String) : Console := ⟨"", .lines lines, []⟩

/-- A console that reads from a feed and accepts all writes. -/
def ofFeed (feed : Feed) : Console := ⟨"", .feed feed, []⟩

/-- Reads a line, if one is left. -/
def readLine (c : Console) : Except String (Option String) × Console :=
  match c.input with
  | .lines [] => (.ok none, c)
  | .lines (line :: rest) => (.ok (some line), { c with input := .lines rest })
  | .feed feed =>
    let read := feed.readLine
    (read.line, { c with input := .feed read.rest })

/-- Writes a text. -/
def write (text : String) (c : Console) : Except String Unit × Console :=
  match c.writes with
  | some message :: rest => (.error message, { c with writes := rest })
  | _ => (.ok (), { c with output := c.output ++ text, writes := c.writes.tail })

end Console

end Tern
