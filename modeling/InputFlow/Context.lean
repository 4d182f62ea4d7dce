import InputFlow.Config.Settings
import InputFlow.Fact
import InputFlow.Program.Query
import Std.Data.ExtTreeSet

namespace InputFlow

/-- What the analysis of a function knows beyond its blocks: its parameters and storage slots, and
what counts as input. -/
structure Context where
  func : FuncId
  params : List ValueId
  slots : List ValueId
  inputs : Std.ExtTreeSet ValueId := ∅
  inputFunctions : Std.ExtTreeSet FuncId := ∅
  inputGlobals : Std.ExtTreeSet ValueId := ∅

namespace Context

/-- The context of a function without any input. Its slots are the globals and the stack slots of
the function, in ascending order. -/
def ofFunction (p : Program) (f : FuncId) : Context where
  func := f
  params := p.params f
  slots :=
    let allocas := ((p.functionBlocks f).flatMap p.instructions).filter p.isAlloca
    (Std.ExtTreeSet.ofList (p.globals ++ allocas)).toList

def withInputs (c : Context) (values : List ValueId) : Context :=
  { c with inputs := c.inputs.insertMany values }

def withInputFunctions (c : Context) (functions : List FuncId) : Context :=
  { c with inputFunctions := c.inputFunctions.insertMany functions }

def withInputGlobals (c : Context) (globals : List ValueId) : Context :=
  { c with inputGlobals := c.inputGlobals.insertMany globals }

def isInput (c : Context) (v : ValueId) : Bool :=
  c.inputs.contains v

def isInputFunction (c : Context) (f : FuncId) : Bool :=
  c.inputFunctions.contains f

/-- The parameters that are inputs, in their order. -/
def inputParams (c : Context) : List ValueId :=
  c.params.filter c.isInput

/-- The facts on entry to the function: an input depends on itself. -/
def initialFacts (c : Context) (p : Program) : FactMap :=
  let params := c.params.map fun v => (v, if c.isInput v then Fact.on v else .independent)
  let globals := p.globals.map fun g =>
    (g, if c.inputGlobals.contains g then Fact.on g else .independent)
  Std.ExtTreeMap.ofList (params ++ globals)

/-- The context of a function under the settings, with further inputs. -/
def ofSettings (p : Program) (s : Settings) (f : FuncId) (extra : List ValueId) : Context :=
  let params := if p.functionName f == s.entry || s.scope == .allArguments then p.params f else []
  ((((ofFunction p f).withInputFunctions
    (p.functionIds.filter fun g => s.isInputFunction (p.functionName g))).withInputGlobals
    (p.globals.filter fun g => s.isInputGlobal (p.valueName g))).withInputs extra).withInputs params

end Context

end InputFlow
