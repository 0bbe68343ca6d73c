import DataContract.CommandLine.Path
import DataContract.CommandLine.Run

/-!
# The program

Reads the files that a request names, and shows what the request does.

Specification (`SPEC_FULL.md`, part II): section 10.6, the CLI.
-/

namespace DataContract

/-- The number of a system error, which some calls report negated. -/
def errorNumber (code : UInt32) : Nat :=
  if code < 0x80000000 then code.toNat else (0 - code).toNat

/-- Why a file cannot be read or written, in words. -/
def reasonOf (error : IO.Error) : String :=
  match error with
  | .noFileOrDirectory .. => PathFault.absent.message
  | .inappropriateType _ code _ =>
    if errorNumber code = 20 then PathFault.notADirectory.message
    else PathFault.isADirectory.message
  | .invalidArgument _ code details =>
    if errorNumber code = 36 then PathFault.tooLong.message
    else s!"{details} (os error {errorNumber code})"
  | .permissionDenied _ code _ => s!"Permission denied (os error {errorNumber code})"
  | error => toString error

/-- The content of a file, or why there is none. -/
def readContent (path : String) : IO (Except String String) := do
  try
    match String.fromUTF8? (← IO.FS.readBinFile path) with
    | some content => return .ok content
    | none => return .error "stream did not contain valid UTF-8"
  catch error => return .error (reasonOf error)

/-- The paths that a request reads. -/
def Request.paths : Request → List String
  | .perform _ document config => document :: config.toList
  | .version | .help | .misuse => []

/-- The report of a request, its file being written. -/
def carryOut (request : Request) : IO Report := do
  let contents ← request.paths.mapM fun path => return (path, ← readContent path)
  let read := fun path => (contents.lookup path).getD (.error "")
  let report := request.run read
  match report.file with
  | none => return report
  | some (path, content) =>
    try
      IO.FS.writeFile path content
      return report
    catch error => return Report.unwritten path (reasonOf error)

end DataContract

/-- Shows what the arguments ask for. -/
def main (args : List String) : IO UInt32 := do
  let report ← DataContract.carryOut (DataContract.Request.parse args)
  (← IO.getStdout).putStr report.stdout
  (← IO.getStderr).putStr report.stderr
  return UInt32.ofNat report.code
