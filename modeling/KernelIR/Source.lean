/-!
# Sources

The text of a kernel comes from a file or from the standard input. A `SourceError` says
why it cannot be read.

A `FileTree` is a system of files as a plain value, and `FileTree.read` follows a path
through it. Every part of a path is looked for in a directory, an empty part or a dot
stays there, and two dots lead back to the directory around it, which is the root itself
at the root. So a path with a slash at its end never names a file.
-/

namespace KernelIR

/-- Why a source cannot be read. -/
inductive SourceError where
  | notFound
  | noDevice
  | accessDenied
  | notDirectory
  | isDirectory
  | nameTooLong
  | notUtf8
  | other (text : String)
deriving DecidableEq

def SourceError.message : SourceError → String
  | notFound => "No such file or directory (os error 2)"
  | noDevice => "No such device or address (os error 6)"
  | accessDenied => "Permission denied (os error 13)"
  | notDirectory => "Not a directory (os error 20)"
  | isDirectory => "Is a directory (os error 21)"
  | nameTooLong => "File name too long (os error 36)"
  | notUtf8 => "stream did not contain valid UTF-8"
  | other text => text

/-- Files in directories. A file is what reading it gives. -/
inductive FileTree where
  | file (text : Except SourceError String)
  | directory (entries : List (String × FileTree))

namespace FileTree

/-- The largest number of bytes in one part of a path. -/
def maxName : Nat :=
  255

/-- The largest number of bytes in a path. -/
def maxPath : Nat :=
  4095

/-- A file or directory, and the directories around it, the innermost first. -/
structure Place where
  here : FileTree
  around : List FileTree

/-- Follows one part of a path. Only a directory has parts. -/
def Place.enter (p : Place) (part : List Char) : Except SourceError Place :=
  match p.here with
  | .file _ => .error .notDirectory
  | .directory entries =>
    if part = [] ∨ part = ['.'] then .ok p
    else if part = ['.', '.'] then
      match p.around with
      | [] => .ok p
      | outer :: around => .ok ⟨outer, around⟩
    else if maxName < (String.ofList part).utf8ByteSize then .error .nameTooLong
    else
      match entries.lookup (String.ofList part) with
      | none => .error .notFound
      | some tree => .ok ⟨tree, p.here :: p.around⟩

/-- Reads the file that a path names, which leads from the root if it begins with a slash
and from `current` otherwise. -/
def read (root : FileTree) (current : Place) (path : String) : Except SourceError String := do
  if maxPath < path.utf8ByteSize then throw .nameTooLong
  let start := if path.toList.head? = some '/' then ⟨root, []⟩ else current
  let place ← (path.toList.splitOn '/').foldlM Place.enter start
  match place.here with
  | .file text => text
  | .directory _ => throw .isDirectory

end FileTree

end KernelIR
