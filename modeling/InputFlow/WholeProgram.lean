import InputFlow.Procedure

namespace InputFlow

/-- Further inputs of each function. -/
abbrev Seeds := Std.ExtTreeMap FuncId (Std.ExtTreeSet ValueId)

abbrev Procedures := Std.ExtTreeMap FuncId (Except AnalysisError Procedure)

/-- The functions of a program with the number of rounds it took. -/
structure WholeProgram where
  procedures : Procedures
  rounds : Nat

namespace Procedures

def results (ps : Procedures) : List (FuncId × Procedure) :=
  ps.toList.filterMap fun entry => match entry.2 with
    | .ok r => some (entry.1, r)
    | .error _ => none

def failures (ps : Procedures) : List (FuncId × AnalysisError) :=
  ps.toList.filterMap fun entry => match entry.2 with
    | .ok _ => none
    | .error error => some (entry.1, error)

def hasInput (ps : Procedures) (f : FuncId) (v : ValueId) : Bool :=
  match ps[f]? with
  | some (.ok r) => r.inputs.contains v
  | _ => false

end Procedures

namespace WholeProgram

def isComplete (w : WholeProgram) : Bool :=
  w.procedures.failures.isEmpty

end WholeProgram

namespace Program

variable (p : Program)

def callees (f : FuncId) : List FuncId :=
  if p.isDeclaration f then []
  else
    (Std.ExtTreeSet.ofList (((p.functionBlocks f).flatMap p.instructions).filterMap p.callee?)).toList

def callers (f : FuncId) : List FuncId :=
  p.functionIds.filter fun g => (p.callees g).contains f

def param? (f : FuncId) (position : Nat) : Option ValueId :=
  (p.params f)[position]?

def definedFunctions : List FuncId :=
  p.functionIds.filter fun f => !p.isDeclaration f

/-- The parameters that receive a dependent argument from a function, with their own functions. -/
def receivers (ps : Procedures) (r : Procedure) : List (FuncId × ValueId) :=
  r.callArgs.toList.filterMap fun entry =>
    if entry.2.isDependent && ps.contains entry.1.callee then
      (p.param? entry.1.callee entry.1.position).map fun v => (entry.1.callee, v)
    else none

/-- The seeds with one more parameter, and the functions whose seeds have grown. -/
def seed (ps : Procedures) (found : Seeds × Std.ExtTreeSet FuncId) (receiver : FuncId × ValueId) :
    Seeds × Std.ExtTreeSet FuncId :=
  let known := found.1.getD receiver.1 ∅
  if ps.hasInput receiver.1 receiver.2 || known.contains receiver.2 then found
  else (found.1.insert receiver.1 (known.insert receiver.2), found.2.insert receiver.1)

/-- The seeds with every parameter that receives a dependent argument and is no input yet. -/
def discover (ps : Procedures) (seeds : Seeds) : Seeds × Std.ExtTreeSet FuncId :=
  (ps.results.flatMap fun entry => p.receivers ps entry.2).foldl (seed ps) (seeds, ∅)

def analyzeListed (oracle : Oracle) (s : Settings) (seeds : Seeds) (todo : List FuncId)
    (ps : Procedures) : Procedures :=
  todo.foldl (fun ps f =>
    ps.insert f (p.analyzeFunction oracle s f (seeds.getD f ∅).toList)) ps

/-- Goes on with the listed functions, for at most `fuel` more rounds after this one. -/
def rounds (oracle : Oracle) (s : Settings) : Nat → Nat → Seeds → List FuncId → Procedures → WholeProgram
  | fuel, round, seeds, todo, ps =>
    let ps := p.analyzeListed oracle s seeds todo ps
    if s.scope ≠ .interprocedural then ⟨ps, round⟩
    else
      let (seeds, grown) := p.discover ps seeds
      if grown.isEmpty then ⟨ps, round⟩
      else
        match fuel with
        | 0 => ⟨ps, round⟩
        | fuel + 1 => rounds oracle s fuel (round + 1) seeds grown.toList ps

/-- The number of parameters of all functions. Each round but the last makes one of them an input. -/
def paramCount : Nat :=
  (p.functionIds.flatMap p.params).length

/-- Analyses all functions that have a body. Under the interprocedural scope a parameter that
receives a dependent argument at some call becomes an input, and the functions concerned are
analysed again until there are no more such parameters. -/
def analyze (oracle : Oracle) (s : Settings) : Except AnalysisError WholeProgram := do
  match s.validate with
  | .error error => throw (.settings error)
  | .ok () =>
    if (p.functionNamed? s.entry).isNone then throw (.unknownFunction s.entry)
    return p.rounds oracle s p.paramCount 1 ∅ p.definedFunctions ∅

end Program

end InputFlow
