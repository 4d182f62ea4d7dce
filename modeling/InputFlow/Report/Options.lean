import InputFlow.Program.Listing
import InputFlow.Report.Text
import InputFlow.Text.Lines
import InputFlow.WholeProgram

namespace InputFlow

/-- The reports asked for, and the settings of the analysis behind them. -/
structure ReportOptions where
  listing : Bool := false
  order : Bool := false
  dependencies : Bool := false
  effects : Bool := false
  nonDeterminism : Bool := false
  cutVertices : Bool := false
  settings : Settings := {}
deriving DecidableEq, Repr

inductive OptionError where
  | unknownScope (name : String)
  | unknownOption (text : String)
deriving DecidableEq, Repr

def OptionError.message : OptionError → String
  | unknownScope name => s!"Unknown input scope: {name}"
  | unknownOption text => s!"Unknown RUN option: {text}"

namespace ReportOptions

def valueOf? (name : String) (option : String) : Option String :=
  (Text.after? name.toList option.toList).map String.ofList

/-- Takes account of one option of a test's command; `%s` stands for the test itself. -/
def addOption (o : ReportOptions) (option : String) : Except OptionError ReportOptions :=
  match option with
  | "--print-ir" => .ok { o with listing := true }
  | "--print-rpo" => .ok { o with order := true }
  | "--print-deps" => .ok { o with dependencies := true }
  | "--print-effects" => .ok { o with effects := true }
  | "--print-nondet" => .ok { o with nonDeterminism := true }
  | "--print-cut-vertices" => .ok { o with cutVertices := true }
  | "%s" => .ok o
  | _ =>
    let s := o.settings
    if let some entry := valueOf? "--entry=" option then .ok { o with settings := { s with entry } }
    else if let some name := valueOf? "--input-fn=" option then
      .ok { o with settings := { s with inputFunctions := s.inputFunctions ++ [name] } }
    else if let some name := valueOf? "--input-global=" option then
      .ok { o with settings := { s with inputGlobals := s.inputGlobals ++ [name] } }
    else if let some name := valueOf? "--scope=" option then
      match Scope.ofName? name with
      | some scope => .ok { o with settings := { s with scope } }
      | none => .error (.unknownScope name)
    else .error (.unknownOption option)

def ofList (options : List String) : Except OptionError ReportOptions :=
  options.foldlM addOption { settings := { parallel := false } }

def needsFacts (o : ReportOptions) : Bool :=
  o.dependencies || o.effects || o.nonDeterminism

end ReportOptions

namespace Program

variable (p : Program) (o : ReportOptions)

def factLines (f : FuncId) : Except AnalysisError Procedure → List String
  | .error error => [s!"Analysis failed for {p.functionName f}: {error.message p.naming}"]
  | .ok r =>
    (if o.dependencies then r.dependencyLines p p.naming else []) ++
      (if o.effects then r.effectLines p.naming else []) ++
      (if o.nonDeterminism then r.nonDeterminismLines p p.naming else [])

def reportLines (facts : Option WholeProgram) (f : FuncId) : List String :=
  let hasBlocks := (p.entryBlock? f).isSome
  (if o.order && hasBlocks then p.orderLines p.naming f else []) ++
    (if o.cutVertices && hasBlocks then p.cutLines p.naming f else []) ++
    match facts.bind (·.procedures[f]?) with
    | some result => p.factLines o f result
    | none => []

/-- The text of the reports on all functions that have a body. -/
def render : Except AnalysisError String := do
  let facts ← if o.needsFacts then
      pure (some (← p.analyze p.syntacticOracle o.settings))
    else pure none
  return (if o.listing then p.listing else "") ++
    textOfLines (p.definedFunctions.flatMap (p.reportLines o facts))

end Program

end InputFlow
