import DataContract.CommandLine.Arguments
import DataContract.Config.Decode
import DataContract.Document.Decode
import DataContract.Model.Encode
import DataContract.Model.RevivalList

/-!
# Running a request

What a request does, as a function of what can be read.

Specification (`SPEC_FULL.md`, part II): section 6, `contractgen compile` and
`contractgen revivers`, and section 10.2 for the exit code.

Contents:

* `Report`: what a run shows, and the file that it writes.
* `Request.run`: the report of a request.
-/

namespace DataContract

/-- What a run shows. -/
structure Report where
  code : Nat := 0
  stdout : String := ""
  stderr : String := ""
  /-- The path and content of the file to be written. -/
  file : Option (String × String) := none
  deriving DecidableEq, Repr

/-- A file that cannot be read or written, and why. -/
structure FileFault where
  path : String
  reason : String
  deriving DecidableEq, Repr

/-- The wording of a fault. -/
def FileFault.message (f : FileFault) : String := s!"Failed to read {f.path}: {f.reason}"

/-- Why a run fails. -/
inductive RunError where
  | file (fault : FileFault)
  /-- The configuration is none. -/
  | config
  /-- The document is none. -/
  | document (error : Document.Error)
  | eventArity (fault : EventArity)
  deriving DecidableEq, Repr

/-- The wording of what is wrong with a document. -/
def Document.Error.message : Document.Error → String
  | .text .malformed => "malformed text"
  | .text .truncated => "the text ends too early"
  | .shape => "unexpected value"
  | .typeExpr error => error.message

/-- The wording of a failure. -/
def RunError.message : RunError → String
  | .file fault => fault.message
  | .config => "Failed to parse compiler config: malformed text or unexpected value"
  | .document error => "Failed to parse service document: " ++ error.message
  | .eventArity fault => fault.message

/-- The report of a failure. -/
def RunError.report (error : RunError) : Report := { code := 1, stderr := error.message ++ "\n" }

/-- The name and version of the program. -/
def versionText : String := "contractgen 0.1.0\n"

/-- How the program is used. -/
def usageText : String :=
  "Usage: contractgen [-v] (compile | revivers) DOCUMENT [--config CONFIG] " ++
    "[-o PATH] [--pretty]\n"

namespace Request

/-- What can be read under a path. -/
abbrev Reading := String → Except String String

/-- The content of a file. -/
def readFile (read : Reading) (path : String) : Except RunError String :=
  (read path).mapError fun reason => .file { path, reason }

/-- The configuration in a file, the default one for no file. -/
def readConfig (read : Reading) : Option String → Except RunError Config
  | none => .ok {}
  | some path => do
    match Config.parse? (← readFile read path) with
    | some config => return config
    | none => throw .config

/-- The model of a document in a file. -/
def readModel (read : Reading) (document : String) (config : Option String) :
    Except RunError Contract := do
  let config ← readConfig read config
  let document ← (Document.parse (← readFile read document)).mapError .document
  (document.compile config).mapError .eventArity

/-- What a task shows of a model. -/
def runTask (contract : Contract) : Task → Report
  | .compile none pretty => { stdout := contract.toText pretty ++ "\n" }
  | .compile (some path) pretty => { file := some (path, contract.toText pretty ++ "\n") }
  | .revivers => { stdout := contract.listRevivals }

/-- The report of a request. -/
def run (read : Reading) : Request → Report
  | .perform task document config =>
    match readModel read document config with
    | .ok contract => runTask contract task
    | .error error => error.report
  | .version => { stdout := versionText }
  | .help => { stdout := usageText }
  | .misuse => { code := 2, stderr := usageText }

end Request

/-- The report when the file could not be written. -/
def Report.unwritten (path reason : String) : Report :=
  RunError.report (.file { path, reason })

end DataContract
