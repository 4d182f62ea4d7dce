import InputFlow.Alias
import InputFlow.Block.Transfer
import InputFlow.Graph.Cut
import InputFlow.Procedure

namespace InputFlow

def Kind.name : Kind → String
  | phi => "phi"
  | alloca => "alloca"
  | load => "load"
  | store => "store"
  | elementAddress => "elementaddr"
  | call => "call"
  | conditional => "condbranch"
  | branch => "branch"
  | ret => "return"
  | other => "other"

/-- Names of the parts of a program. The name of a value has its mark, as in `%x` and `@g`. -/
structure Naming where
  function : FuncId → String
  block : BlockId → String
  value : ValueId → String
  operation : ValueId → String

namespace Program

variable (p : Program)

/-- The name of a value with its mark, or its number if it has none. -/
def valueText (v : ValueId) : String :=
  let name := p.valueName v
  if name.isEmpty then valueLabel v
  else if p.role v == .global then "@" ++ name
  else "%" ++ name

def operationText (i : ValueId) : String :=
  match p.opcode? i with
  | some op => op.mnemonic
  | none => p.kind i |>.name

def naming : Naming :=
  ⟨p.functionName, p.blockName, p.valueText, p.operationText⟩

/-- Names that go without the text: functions keep theirs, values have their numbers, instructions
the names of their kinds, and blocks none. -/
def coarseNaming : Naming :=
  ⟨p.functionName, fun _ => "", valueLabel, fun i => (p.kind i).name⟩

end Program

namespace AnalysisError

def message (names : Naming) : AnalysisError → String
  | traversalOrder v b =>
    s!"operand {names.value v} used in block {names.block b} has no recorded dependency and no visited definition"
  | endlessAddress v => s!"address {names.value v} has no base"
  | missingEntry f => s!"function {names.function f} has no entry block"
  | unknownFunction name => s!"function not found: {name}"
  | diverged f rounds =>
    s!"fixpoint for function {names.function f} did not settle after {rounds} rounds"
  | settings error => s!"invalid configuration: {error.message}"

end AnalysisError

/-- The text of lines, each closed by a line feed. -/
def textOfLines (lines : List String) : String :=
  String.join (lines.map (· ++ "\n"))

namespace Fact

def text (names : Naming) (a : Dep) : String :=
  match a with
  | .dependent sources => "dependent [" ++ ", ".intercalate (sources.toList.map names.value) ++ "]"
  | _ => a.level.name

end Fact

namespace Procedure

variable (r : Procedure) (p : Program) (names : Naming)

def instructionText (i : ValueId) : String :=
  if p.hasResult i then s!"{names.value i} = {names.operation i}" else names.operation i

def dependencyLines : List String :=
  let block (b : BlockId) := s!"{names.block b}:" :: (p.instructions b).filterMap fun i =>
    (r.instruction? i).map fun fact => s!"  {instructionText p names i}: {fact.text names}"
  s!"Dependencies for {names.function r.func}" :: r.order.flatMap block ++ ["End Dependencies"]

def effectLines : List String :=
  s!"Effects for {names.function r.func}" ::
    r.outArgs.toList.map (fun e => s!"  out {names.value e.1}: {e.2.text names}") ++
    r.callArgs.toList.map (fun e =>
      s!"  call {names.function e.1.callee}#{e.1.position}: {e.2.text names}") ++
    (r.returned.map fun fact => s!"  return: {fact.text names}").toList ++ ["End Effects"]

def nonDeterminismLines : List String :=
  s!"Non-deterministic blocks for {names.function r.func}" ::
    (r.nonDeterministicBlocks p).map names.block ++ ["End Non-deterministic blocks"]

end Procedure

namespace Program

variable (p : Program) (names : Naming)

def cutLines (f : FuncId) : List String :=
  s!"Cut vertices for {names.function f}" ::
    (p.cutVertices (p.flow f)).map names.block ++ ["End Cut vertices"]

/-- The reachable blocks of a function, numbered in order. -/
def orderLines (f : FuncId) : List String :=
  s!"RPO for func {names.function f}" ::
    (p.flow f).order.zipIdx.map (fun b => s!"{b.2}: {names.block b.1}") ++ ["End RPO"]

end Program

end InputFlow
