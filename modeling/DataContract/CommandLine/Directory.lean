import DataContract.CommandLine.Path
import DataContract.CommandLine.Run

/-!
# Running in a directory

A run as a function of the files of the working directory, for callers that hold them in memory.
Beyond the working directory there are the directories that hold it, the root, and the devices.

Specification (`SPEC_FULL.md`, part II): section 6, the CLI, whose input and output are files.

Contents:

* `Directory`: the files of a directory.
* `Directory.read`: what can be read under a path.
* `Directory.target`: what is written under a path.
* `Directory.run`: the report of a run with the files that it has created.
-/

namespace DataContract

/-- The files of a directory by their paths. -/
abbrev Directory := List (String × String)

namespace Directory

/-- A device, which is written like a file and holds nothing. -/
inductive Device where
  /-- Forgets what is written. -/
  | null
  | output
  | errors
  deriving DecidableEq, Repr

/-- A directory that a path can pass. -/
inductive Folder where
  /-- The working directory, or one below it by the names that lead there. -/
  | within (names : List String)
  /-- A directory that holds the working directory. -/
  | above
  | root
  /-- The directory of the devices. -/
  | devices
  deriving DecidableEq, Repr

/-- The directory that holds a directory.  The root holds itself. -/
def Folder.parent : Folder → Folder
  | .within [] => .above
  | .within (name :: names) => .within (name :: names).dropLast
  | .above => .above
  | .root => .root
  | .devices => .root

/-- What a name stands for. -/
inductive Entry where
  | folder (folder : Folder)
  | file (content : String)
  | device (device : Device)
  deriving DecidableEq, Repr

/-- The names that lead to a file from the working directory. -/
def place (path : String) : List String := (Path.names path).filter fun name => name ≠ "."

/-- The file or directory at a place in the working directory. -/
def entryWithin? (files : Directory) (names : List String) : Option Entry :=
  match files.find? fun (path, _) => place path = names with
  | some (_, content) => some (.file content)
  | none =>
    if files.any fun (path, _) => names.isPrefixOf (place path) then some (.folder (.within names))
    else none

/-- The device of a name. -/
def device? : String → Option Device
  | "null" => some .null
  | "stdout" => some .output
  | "stderr" => some .errors
  | _ => none

/-- What a name stands for in a directory. -/
def entry? (files : Directory) (folder : Folder) (name : String) : Option Entry :=
  if name = "." then some (.folder folder)
  else if name = ".." then some (.folder folder.parent)
  else
    match folder with
    | .within names => files.entryWithin? (names ++ [name])
    | .above => none
    | .root => if name = "dev" then some (.folder .devices) else none
    | .devices => (device? name).map .device

/-- What a name stands for in a directory, for a name that may be looked up. -/
def lookUp (files : Directory) (folder : Folder) (name : String) :
    Except PathFault (Option Entry) :=
  if Path.nameLimit < name.utf8ByteSize then .error .tooLong else .ok (files.entry? folder name)

/-- The directory of that name in a directory. -/
def enter (files : Directory) (folder : Folder) (name : String) : Except PathFault Folder := do
  match ← files.lookUp folder name with
  | some (.folder inner) => return inner
  | some (.file _) | some (.device _) => throw .notADirectory
  | none => throw .absent

/-- The directory of the last name of a path. -/
def folderOf (files : Directory) (path : Path) : Except PathFault Folder :=
  path.passed.foldlM files.enter (if path.rooted then .root else .within [])

/-- The parts of a path that may be followed. -/
def follow (path : String) : Except PathFault Path :=
  if path = "" then .error .absent
  else if Path.sizeLimit < path.utf8ByteSize then .error .tooLong
  else .ok (Path.ofString path)

/-- The content of the file under a path. -/
def read (files : Directory) (path : String) : Except PathFault String := do
  let path ← follow path
  match ← files.lookUp (← files.folderOf path) path.last with
  | some (.folder _) => throw .isADirectory
  | some (.file content) => if path.slashed then throw .notADirectory else return content
  | some (.device _) => if path.slashed then throw .notADirectory else return ""
  | none => throw .absent

/-- What is written under a path. -/
inductive Target where
  /-- A new file, by the names that lead to it from the working directory. -/
  | create (names : List String)
  /-- A file of the directory, or one beyond it. -/
  | replace
  | device (device : Device)
  deriving DecidableEq, Repr

/-- What is written under a path.  A slash at the end asks for a directory, which is no target. -/
def target (files : Directory) (path : String) : Except PathFault Target := do
  let path ← follow path
  let folder ← files.folderOf path
  if path.slashed then throw .isADirectory
  match ← files.lookUp folder path.last with
  | some (.folder _) => throw .isADirectory
  | some (.file _) => return .replace
  | some (.device device) => return .device device
  | none =>
    match folder with
    | .within names => return .create (names ++ [path.last])
    | .above | .root | .devices => return .replace

/-- The report and the files created when content has reached its target. -/
def write (report : Report) (content : String) : Target → Report × Directory
  | .create names => (report, [("/".intercalate names, content)])
  | .replace | .device .null => (report, [])
  | .device .output => ({ report with stdout := report.stdout ++ content }, [])
  | .device .errors => ({ report with stderr := report.stderr ++ content }, [])

/-- The report of a run, and the files that it has created. -/
def run (files : Directory) (args : List String) : Report × Directory :=
  let report := (Request.parse args).run fun path => (files.read path).mapError PathFault.message
  match report.file with
  | none => (report, [])
  | some (path, content) =>
    match files.target path with
    | .error fault => (Report.unwritten path fault.message, [])
    | .ok target => write report content target

end Directory

end DataContract
