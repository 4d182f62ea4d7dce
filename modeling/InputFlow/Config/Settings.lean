import InputFlow.Config.Toml
import InputFlow.Folder

namespace InputFlow

/-- Whose parameters are inputs: those of the entry function, those of all functions, or those of
the entry function and all that receive input at some call. -/
inductive Scope where
  | entryArguments | allArguments | interprocedural
deriving DecidableEq, Repr

namespace Scope

def name : Scope → String
  | entryArguments => "entry-arguments"
  | allArguments => "all-arguments"
  | interprocedural => "interprocedural"

def ofName? (text : String) : Option Scope :=
  [entryArguments, allArguments, interprocedural].find? fun s => s.name == text

end Scope

/-- The settings. Functions and globals that deliver input are given by name. `parallel` allows
functions to be analysed side by side and never changes a result. -/
structure Settings where
  entry : String := "main"
  scope : Scope := .entryArguments
  inputFunctions : List String := []
  inputGlobals : List String := []
  maxRounds : Nat := 10000
  parallel : Bool := true
deriving DecidableEq, Repr

inductive SettingsError where
  | unreadable (path : String) (problem : FileProblem)
  | malformed
  | zeroRounds
deriving DecidableEq, Repr

def SettingsError.message : SettingsError → String
  | unreadable path problem => s!"could not read {path}: {problem.message}"
  | malformed => "malformed configuration"
  | zeroRounds => "max_fixpoint_rounds must be at least 1"

namespace Settings

/-- Refuses settings under which no loop could be analysed. -/
def validate (s : Settings) : Except SettingsError Unit :=
  if s.maxRounds = 0 then .error .zeroRounds else .ok ()

def isInputFunction (s : Settings) (name : String) : Bool :=
  s.inputFunctions.contains name

def isInputGlobal (s : Settings) (name : String) : Bool :=
  s.inputGlobals.contains name

/-- The scope that a value names: by its name, or by a table whose only key is the name and holds
nothing. -/
def scopeOf? : Toml → Option Scope
  | .string name => Scope.ofName? name
  | .table _ [(name, .table _ [])] => Scope.ofName? name
  | .table _ [(name, .array [])] => Scope.ofName? name
  | _ => none

def text? : Toml → Option String
  | .string value => some value
  | _ => none

def names? : Toml → Option (List String)
  | .array items => items.mapM text?
  | _ => none

/-- Sets what a key of a settings file stands for. -/
def set? (s : Settings) (key : String) (value : Toml) : Option Settings :=
  match key with
  | "entry_function" => (text? value).map fun entry => { s with entry }
  | "input_scope" => (scopeOf? value).map fun scope => { s with scope }
  | "input_functions" => (names? value).map fun inputFunctions => { s with inputFunctions }
  | "input_globals" => (names? value).map fun inputGlobals => { s with inputGlobals }
  | "max_fixpoint_rounds" =>
    match value with
    | .integer (.ofNat maxRounds) => some { s with maxRounds }
    | _ => none
  | "parallel" =>
    match value with
    | .boolean parallel => some { s with parallel }
    | _ => none
  | _ => none

/-- The settings of a file; keys that are missing keep their defaults. -/
def ofText (text : List Char) : Except SettingsError Settings :=
  match (Toml.document? text).bind fun entries => entries.foldlM (fun s e => set? s e.1 e.2) {} with
  | none => .error .malformed
  | some s => do
    s.validate
    return s

end Settings

end InputFlow
