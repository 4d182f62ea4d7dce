import InputFlow.Text.Lines

namespace InputFlow.Check

open InputFlow.Text

/-- What a test expects of the lines of a text: a line with a pattern here or later, which may be
called a label; a line with a pattern next; no line with a pattern before the next match; a blank
line next. -/
inductive Directive where
  | check (pattern : String)
  | label (pattern : String)
  | next (pattern : String)
  | not (pattern : String)
  | empty
  | comment (text : String)
deriving DecidableEq, Repr

inductive Mismatch where
  | notFound (pattern : String)
  | labelNotFound (pattern : String)
  | noMoreLines (pattern : String)
  | wrongNext (pattern line : String)
  | notEmpty (line : String)
  | forbidden (pattern line : String)
deriving DecidableEq, Repr

def Mismatch.message : Mismatch → String
  | notFound pattern => s!"CHECK: pattern '{pattern}' not found in output"
  | labelNotFound pattern => s!"CHECK-LABEL: pattern '{pattern}' not found in output"
  | noMoreLines pattern => s!"CHECK-NEXT: no more lines, expected '{pattern}'"
  | wrongNext pattern line => s!"CHECK-NEXT: expected '{pattern}' but got '{line}'"
  | notEmpty line => s!"CHECK-EMPTY: expected empty line but got '{line}'"
  | forbidden pattern line => s!"CHECK-NOT: pattern '{pattern}' found in '{line}'"

def contains (line : List Char) (pattern : String) : Bool :=
  occursIn pattern.toList line

def refuse (lines : List (List Char)) (patterns : List String) : Except Mismatch Unit :=
  patterns.forM fun pattern =>
    match lines.find? (contains · pattern) with
    | some line => .error (.forbidden pattern (String.ofList line))
    | none => .ok ()

/-- The lines before the first one that contains a pattern, and those after it. -/
def splitAtMatch (pattern : String) : List (List Char) → Option (List (List Char) × List (List Char))
  | [] => none
  | line :: rest =>
    if contains line pattern then some ([], rest)
    else (splitAtMatch pattern rest).map fun r => (line :: r.1, r.2)

/-- Passes the lines up to a match, none of which may contain a forbidden pattern. -/
def advance (lines : List (List Char)) (forbidden : List String) (pattern : String)
    (missing : Mismatch) : Except Mismatch (List (List Char)) :=
  match splitAtMatch pattern lines with
  | none => .error missing
  | some (skipped, rest) => do
    refuse skipped forbidden
    return rest

/-- Checks lines, where the patterns in `forbidden` must not occur before the next match. -/
def checkLines (lines : List (List Char)) (forbidden : List String) :
    List Directive → Except Mismatch Unit
  | [] => refuse lines forbidden
  | .comment _ :: rest => checkLines lines forbidden rest
  | .not pattern :: rest => checkLines lines (forbidden ++ [pattern]) rest
  | .check pattern :: rest => do
    checkLines (← advance lines forbidden pattern (.notFound pattern)) [] rest
  | .label pattern :: rest => do
    checkLines (← advance lines forbidden pattern (.labelNotFound pattern)) [] rest
  | .next pattern :: rest =>
    match lines with
    | [] => .error (.noMoreLines pattern)
    | line :: lines =>
      if contains line pattern then checkLines lines [] rest
      else .error (.wrongNext pattern (String.ofList line))
  | .empty :: rest =>
    match lines with
    | [] => checkLines [] forbidden rest
    | line :: lines =>
      if (trim line).isEmpty then checkLines lines forbidden rest
      else .error (.notEmpty (String.ofList line))

def validate (text : String) (directives : List Directive) : Except Mismatch Unit :=
  checkLines (lines text.toList) [] directives

end InputFlow.Check
