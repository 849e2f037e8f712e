import Tern.Files.Basic
import Tern.Table

/-!
# File trees

A file system as a value: the files and directories under their paths. A directory is there
if it was made, or if something lies in it.

* `FileTree.files` are the operations of `Files` on a tree.
-/

namespace Tern

/-- What stands under a path. -/
inductive Entry where
  | file (text : String)
  | directory
deriving DecidableEq, Repr

/-- Files and directories under their paths. -/
structure FileTree where
  entries : List (Path × Entry)

namespace FileTree

/-- A tree with only a root. -/
def empty : FileTree := ⟨[]⟩

/-- Puts an entry under a path. -/
def insert (t : FileTree) (p : Path) (e : Entry) : FileTree :=
  ⟨(p, e) :: t.entries.filter (·.1 ≠ p)⟩

/-- Whether something lies in the directory of a path. -/
def holds (t : FileTree) (p : Path) : Bool :=
  t.entries.any fun e => p.length < e.1.length && e.1.drop (e.1.length - p.length) = p

/-- What a path leads to. -/
def get? (t : FileTree) (p : Path) : Option Entry :=
  match t.entries.lookup p with
  | some e => some e
  | none => if p = [] || t.holds p then some .directory else none

/-- The kind of what a path leads to. -/
def kind? (t : FileTree) (p : Path) : Option EntryKind :=
  (t.get? p).map fun
    | .file _ => .file
    | .directory => .directory

/-- Goes one step, as long as a directory is there. -/
def enter (t : FileTree) (p : Path) (name : String) : Except FileError Path :=
  let q := p.step name
  if name = "." || name = ".." then .ok q
  else
    match t.kind? q with
    | some .directory => .ok q
    | some .file => .error .notDirectory
    | none => .error .missing

/-- The path that a text names. Every name but the last must lead to a directory. -/
def locate (t : FileTree) (directory : Path) (text : String) : Except FileError Path :=
  let start := Path.start directory text
  if text = "" then .error .missing
  else
    match (Path.names text).getLast? with
    | none => .ok start
    | some last => do
      let p ← (Path.names text).dropLast.foldlM t.enter start
      pure (p.step last)

/-- Reads a file. -/
def read (t : FileTree) (directory : Path) (text : String) : Except FileError String := do
  match t.get? (← t.locate directory text) with
  | some (.file contents) =>
    if Path.endsInSlash text then throw .notDirectory else pure contents
  | some .directory => throw .readDirectory
  | none => throw .missing

/-- Writes a file. A slash at the end of its path asks for a directory, which cannot be
written. -/
def write (t : FileTree) (directory : Path) (text contents : String) :
    Except FileError FileTree := do
  let p ← t.locate directory text
  if t.kind? p = some .directory || Path.endsInSlash text then throw .writeDirectory
  else pure (t.insert p (.file contents))

/-- The operations on a tree, seen from a directory. -/
def files (directory : Path) : Files (StateM FileTree) where
  directory := directory
  kind? p := do pure ((← get).kind? p)
  read text := do pure ((← get).read directory text)
  write text contents := do
    match (← get).write directory text contents with
    | .ok t =>
      set t
      pure (.ok ())
    | .error e => pure (.error e)

end FileTree

end Tern
