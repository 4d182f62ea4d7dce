import InputFlow.CommandLine

namespace InputFlow

/-- The problem that an error of the system tells of. -/
def FileProblem.ofError : IO.Error → FileProblem
  | .noFileOrDirectory .. => .missing
  | .permissionDenied .. => .denied
  | .invalidArgument _ _ "name too long" => .nameTooLong
  | .inappropriateType _ 21 _ => .isDirectory
  | .inappropriateType .. => .notDirectory
  | error => .other (toString error)

def fileContents (path : String) : IO (Except FileProblem String) := do
  match ← (IO.FS.readBinFile path).toBaseIO with
  | .error error => return .error (.ofError error)
  | .ok bytes =>
    match String.fromUTF8? bytes with
    | some text => return .ok text
    | none => return .error .notText

end InputFlow

open InputFlow in
/-- Reads the files that the command line names, writes the reports, and tells by its exit code
whether it did (0), failed (1) or did not understand the command line (2). -/
def main (words : List String) : IO UInt32 := do
  match CommandLine.ofWords? words with
  | none =>
    IO.eprintln "Usage: inputdep [OPTIONS] <FILE>"
    return 2
  | some .help =>
    IO.print CommandLine.help
    return 0
  | some (.analyze file command) =>
    match ← command.run fileContents file with
    | .ok output =>
      IO.print output
      return 0
    | .error message =>
      IO.eprintln s!"Error: {message}"
      return 1
