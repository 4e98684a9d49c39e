import SyntaxLint.Files.Path

/-!
# Files — the disk

A disk has files at places, and a working directory from which paths are followed.  A directory is
there when there is a file below it or when it leads to the working directory; others, which may be
empty, are named.

* `Disk.resolve?`: where a path leads, if everything it passes through is a directory.
* `Disk.filesBelow`: the paths of all files below a directory.
-/

namespace SyntaxLint

/-- What is in a file. -/
inductive Stored where
  | text (s : String)
  /-- bytes that are not those of a text -/
  | garbled
  deriving DecidableEq, Repr, Inhabited

/-- Files and a working directory. -/
structure Disk where
  files : List (Place × Stored)
  here : Place
  /-- directories that need no file below them to be there -/
  directories : List Place := []
  deriving DecidableEq, Repr, Inhabited

namespace Disk

/-- What is in the file at a place, if there is one. -/
def file? (d : Disk) (p : Place) : Option Stored := d.files.lookup p

/-- Whether there is a directory at a place. -/
def isDirectory (d : Disk) (p : Place) : Bool :=
  p.isPrefixOf d.here || d.files.any (fun f => p.isPrefixOf f.1 && p != f.1) ||
    d.directories.any p.isPrefixOf

/-- One segment further, from a directory only. -/
def advance? (d : Disk) (p : Place) (segment : List Char) : Option Place :=
  if d.isDirectory p then
    some (match Path.part? segment with
      | some part => p.step part
      | none => p)
  else none

/-- Where a path leads, existing or not, if everything before its end is a directory.  A path
without a character leads nowhere. -/
def resolve? (d : Disk) (path : Path) : Option Place :=
  if path.text.isEmpty then none
  else (Path.segments path.text.toList).foldlM d.advance? (if path.isRooted then [] else d.here)

/-- What is in the file that a path leads to. -/
def read? (d : Disk) (path : Path) : Option Stored := (d.resolve? path).bind d.file?

/-- The directory that a path leads to. -/
def directory? (d : Disk) (path : Path) : Option Place :=
  (d.resolve? path).filter d.isDirectory

/-- The files below the directory at `place`, as paths that begin with `path`. -/
def filesBelow (d : Disk) (path : Path) (place : Place) : List Path :=
  d.files.filterMap fun f =>
    match place.relative? f.1 with
    | none => none
    | some [] => none
    | some names => some (path.below names)

end Disk

end SyntaxLint
