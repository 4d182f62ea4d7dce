import InputFlow.Check.Directive
import InputFlow.Report.Options
import InputFlow.Source.Parse

namespace InputFlow.Check

open InputFlow.Text

structure Run where
  command : String
  options : List String
deriving DecidableEq, Repr

/-- A test: the commands, the checks, and the program text without them. -/
structure Spec where
  runs : List Run
  checks : List Directive
  program : String
deriving DecidableEq, Repr

inductive SpecError where
  | unknownDirective (line : String)
  | noRun
deriving DecidableEq, Repr

def SpecError.message : SpecError → String
  | unknownDirective line => s!"Unknown check directive: {line}"
  | noRun => "No RUN directive found"

inductive LineKind where
  | run (words : List (List Char))
  | check (directive : Directive)
  | unknown (line : String)
  | program
deriving DecidableEq, Repr

/-- What stands behind the opening of a directive in a line, without the blanks around it. -/
def patternAfter? (opening : String) (line : List Char) : Option String :=
  (after? opening.toList line).map fun rest => String.ofList (trim rest)

/-- What a line is; blanks around it do not count. -/
def kindOf (line : List Char) : LineKind :=
  let line := trim line
  if let some rest := after? "; RUN:".toList line then .run (words rest)
  else if let some pattern := patternAfter? "; CHECK-LABEL:" line then .check (.label pattern)
  else if let some pattern := patternAfter? "; CHECK-NEXT:" line then .check (.next pattern)
  else if let some pattern := patternAfter? "; CHECK-NOT:" line then .check (.not pattern)
  else if (after? "; CHECK-EMPTY".toList line).isSome then .check .empty
  else if let some pattern := patternAfter? "; CHECK:" line then .check (.check pattern)
  else if let some text := patternAfter? "; COM:" line then .check (.comment text)
  else if (after? "; CHECK".toList line).isSome then .unknown (String.ofList line)
  else .program

/-- The command of a line; a line without any words has none. -/
def run? (line : List Char) : Option Run :=
  match kindOf line with
  | .run (command :: options) => some ⟨String.ofList command, options.map String.ofList⟩
  | _ => none

def directive? (line : List Char) : Option Directive :=
  match kindOf line with
  | .check directive => some directive
  | _ => none

def unknown? (line : List Char) : Option String :=
  match kindOf line with
  | .unknown text => some text
  | _ => none

def Spec.ofText (text : String) : Except SpecError Spec :=
  let all := lines text.toList
  match all.findSome? unknown? with
  | some line => .error (.unknownDirective line)
  | none =>
    let runs := all.filterMap run?
    if runs.isEmpty then .error .noRun
    else
      let program := all.filter fun line => kindOf line == .program
      .ok ⟨runs, all.filterMap directive?, "\n".intercalate (program.map String.ofList)⟩

inductive Failure where
  | program (failure : Source.Failure)
  | option (error : OptionError)
  | analysis (names : Naming) (error : AnalysisError)
  | mismatch (mismatch : Mismatch)

def Failure.message : Failure → String
  | program failure => failure.message
  | option error => error.message
  | analysis names error => error.message names
  | mismatch m => m.message

def Spec.runOne (spec : Spec) (p : Program) (run : Run) : Except Failure Unit := do
  let options ← (ReportOptions.ofList run.options).mapError .option
  let output ← (p.render options).mapError (.analysis p.naming)
  (validate output spec.checks).mapError .mismatch

def Spec.run (spec : Spec) : Except Failure Unit := do
  let p ← (Source.parse spec.program.toList).mapError .program
  spec.runs.forM (spec.runOne p)

end InputFlow.Check
