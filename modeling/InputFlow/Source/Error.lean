import InputFlow.Program.Basic
import InputFlow.Text.Lines

namespace InputFlow.Source

open InputFlow.Text

inductive ParseError where
  | expectedMark (mark : Char) (found : Option Char)
  | expectedWord (found : Option Char)
  | expectedNumber
  | numberTooLarge
  | expectedGlobalKeyword (found : String)
  | duplicateGlobal (name : String)
  | duplicateFunction (name : String)
  | duplicateBlock (name : String)
  | duplicateValue (name : String)
  | openParameterList
  | openBody (function : String)
  | latePhi
  | unknownOperation (word : String)
  | noResult (op : Opcode)
  | needsResult (op : Opcode)
  | noBase
  | noCallee
  | undefinedGlobal (name : String)
  | undefinedValue (name : String)
  | undefinedBlock (name : String)
  | undefinedFunction (name : String)
deriving DecidableEq, Repr

namespace ParseError

def describe : Option Char → String
  | none => "None"
  | some c => "Some(" ++ quoted c ++ ")"

def message : ParseError → String
  | expectedMark mark found => s!"Expected '{mark}' but found {describe found}"
  | expectedWord (some c) => s!"Expected identifier but found '{c}'"
  | expectedWord none => "Expected identifier but found EOF"
  | expectedNumber => "Expected number"
  | numberTooLarge => "Failed to parse number: number too large to fit in target type"
  | expectedGlobalKeyword found => s!"Expected 'global' but found '{found}'"
  | duplicateGlobal name => s!"Duplicate global definition: '@{name}'"
  | duplicateFunction name => s!"Duplicate function definition: '{name}'"
  | duplicateBlock name => s!"Duplicate block name: '{name}'"
  | duplicateValue name => s!"Value '%{name}' defined twice"
  | openParameterList => "Expected ',' or ')' in argument list"
  | openBody function => s!"Unterminated function body: '{function}'"
  | latePhi => "PHI nodes must be at the beginning of a block"
  | unknownOperation word => s!"Unknown operation: {word}"
  | noResult op => s!"Operation '{op.mnemonic}' does not produce a value"
  | needsResult op => s!"Operation '{op.mnemonic}' requires a result value"
  | noBase => "gep requires a base operand"
  | noCallee => "Expected '@' before function name in call"
  | undefinedGlobal name => s!"Undefined global reference: @{name}"
  | undefinedValue name => s!"Undefined value reference: %{name}"
  | undefinedBlock name => s!"Undefined block reference: ^{name}"
  | undefinedFunction name => s!"Undefined function reference: @{name}"

end ParseError

/-- A refused text, with the byte position where reading stopped. A call of an undefined function is
found when the whole text has been read, and has no position. -/
structure Failure where
  error : ParseError
  position? : Option Nat
deriving DecidableEq, Repr

namespace Failure

def message (failure : Failure) : String :=
  "failed to parse IR: " ++ failure.error.message

/-- The record for the log, which quotes the text around the position. -/
def record? (failure : Failure) (text : List Char) : Option String :=
  failure.position?.map fun position =>
    let nearby := (byteWindow text (position - 20) (min (position + 20) (byteLength text))).getD []
    s!"TIR parse error at position {position}: {failure.error.message} (near '{String.ofList nearby}')"

end Failure

end InputFlow.Source
