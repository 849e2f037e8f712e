import Tern.Files.Path

/-!
# Files

What the rest of the library asks of a file system, and how it can refuse.

* `Files` are the operations; they may have effects;
* `FileError.message` words a refusal.
-/

namespace Tern

/-- What a path leads to. -/
inductive EntryKind where
  | file | directory
deriving DecidableEq, Repr

/-- Why a file cannot be read or written. -/
inductive FileError where
  | missing
  | notDirectory
  | readDirectory
  | writeDirectory
  | refused (message : String)
deriving DecidableEq, Repr

/-- The message of a refusal to use the file of a path. -/
def FileError.message (path : String) : FileError → String
  | missing => "ENOENT: no such file or directory, open '" ++ path ++ "'"
  | notDirectory => "ENOTDIR: not a directory, open '" ++ path ++ "'"
  | readDirectory => "EISDIR: illegal operation on a directory, read"
  | writeDirectory => "EISDIR: illegal operation on a directory, open '" ++ path ++ "'"
  | refused message => message

/-- A file system: the directory that one is in, and ways to look at entries, to read and to
write. Files are named by texts, entries by absolute paths. -/
structure Files (m : Type → Type) where
  directory : Path
  kind? : Path → m (Option EntryKind)
  read : String → m (Except FileError String)
  write : String → String → m (Except FileError Unit)

end Tern
