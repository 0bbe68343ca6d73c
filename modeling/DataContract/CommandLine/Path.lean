import DataContract.Text.Search

/-!
# Paths

A path says where to begin and which names to follow from there.

Specification (`SPEC_FULL.md`, part II): section 6, the paths that the CLI is given.

Contents:

* `Path`: the parts of a path.
* `Path.ofString`: takes a path apart.
* `PathFault`: why a path does not lead to a file.
-/

namespace DataContract

/-- The parts of a path. -/
structure Path where
  /-- The path begins at the root, not in the working directory. -/
  rooted : Bool
  /-- The names of the directories that are passed, in their order. -/
  passed : List String
  /-- The name at the end, `.` for a path without names. -/
  last : String
  /-- A slash stands at the end. -/
  slashed : Bool
  deriving DecidableEq, Repr

namespace Path

/-- The names of a path, in their order. -/
def names (text : String) : List String :=
  ((Text.pieces '/' text.toList).map String.ofList).filter fun name => name ≠ ""

/-- Takes a path apart. -/
def ofString (text : String) : Path where
  rooted := text.toList.head? == some '/'
  passed := (names text).dropLast
  last := (names text).getLastD "."
  slashed := text.toList.getLast? == some '/'

/-- Bytes that a name may have at most. -/
def nameLimit : Nat := 255

/-- Bytes that a path may have at most. -/
def sizeLimit : Nat := 4095

end Path

/-- Why a path does not lead to a file. -/
inductive PathFault where
  /-- Nothing has that name. -/
  | absent
  /-- A file stands where a directory has to be. -/
  | notADirectory
  /-- A directory stands where a file has to be. -/
  | isADirectory
  /-- A name or the whole path is too long. -/
  | tooLong
  deriving DecidableEq, Repr

/-- The wording of a fault. -/
def PathFault.message : PathFault → String
  | .absent => "No such file or directory (os error 2)"
  | .notADirectory => "Not a directory (os error 20)"
  | .isADirectory => "Is a directory (os error 21)"
  | .tooLong => "File name too long (os error 36)"

end DataContract
