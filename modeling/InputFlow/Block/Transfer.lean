import InputFlow.Block.State
import InputFlow.Context

namespace InputFlow

/-- Where a pointer leads: to a tracked slot, of which `whole` tells whether the pointer is its own
address and not that of an element; to memory of a parameter; or to memory that cannot be traced
beyond the value `root`. -/
inductive Pointer where
  | slot (slot : ValueId) (whole : Bool)
  | param (root : ValueId)
  | untraced (root : ValueId)
deriving DecidableEq, Repr

namespace Program

variable (p : Program)

/-- Goes from an element address to its base until there is none, for at most `fuel` steps. -/
def pointerFrom : Nat → Bool → ValueId → Option Pointer
  | 0, _, _ => none
  | fuel + 1, whole, v =>
    match p.role v with
    | .global => some (.slot v whole)
    | .argument => some (.param v)
    | .constant => some (.untraced v)
    | .instruction =>
      match p.code? v with
      | some (.alloca _ _) => some (.slot v whole)
      | some (.gep base _) => pointerFrom fuel false base
      | _ => some (.untraced v)

/-- Where a pointer leads. An element address that is its own base, at any distance, leads nowhere. -/
def pointer? (v : ValueId) : Option Pointer :=
  p.pointerFrom (p.values.size + 1) true v

end Program

inductive AnalysisError where
  | traversalOrder (value : ValueId) (block : BlockId)
  | endlessAddress (value : ValueId)
  | missingEntry (func : FuncId)
  | unknownFunction (name : String)
  | diverged (func : FuncId) (rounds : Nat)
  | settings (error : SettingsError)
deriving DecidableEq, Repr

/-- What the rules go by besides the state of the block. -/
structure Env where
  program : Program
  oracle : Oracle
  context : Context

/-- A step of the analysis. If it fails, the state holds what had been found out before. -/
abbrev Transfer := EStateM AnalysisError BlockState

namespace Env

variable (env : Env)

def aliases (v : ValueId) (candidates : List ValueId) : List ValueId :=
  candidates.filter (env.oracle.mayAlias v)

def aliasWarnings (v : ValueId) (candidates : List ValueId) : List Warning :=
  candidates.filterMap fun c =>
    match env.oracle v c with
    | .ok _ => none
    | .error error => some (.aliasQuery v c error)

/-- The fact of a parameter: an input depends on itself, and any other parameter on the inputs that
it may alias. -/
def paramFact (v : ValueId) : Dep :=
  if env.context.isInput v then .on v
  else
    match env.aliases v env.context.inputParams with
    | [] => .independent
    | inputs => .onAll inputs

def param (v : ValueId) : Transfer Dep := do
  unless env.context.isInput v do
    modify (·.warn (env.aliasWarnings v env.context.inputParams))
  return env.paramFact v

/-- The value itself, if its fact may still change while the function is analysed. -/
def keys (v : ValueId) : List ValueId :=
  if env.program.role v == .instruction && !env.program.isAlloca v then [v] else []

/-- The fact of an operand of the instruction `user`. Constants and addresses of storage are
independent. -/
def operand (user v : ValueId) : Transfer Dep := do
  match env.program.role v with
  | .constant | .global => return .independent
  | .argument => env.param v
  | .instruction =>
    if env.program.isAlloca v then return .independent
    else
      match (← get).values[v]? with
      | some fact =>
        modify (·.record [v] (.inst user))
        return fact
      | none => throw (.traversalOrder v (← get).block)

def joinOperands (user : ValueId) (fact : Dep) (operands : List ValueId) : Transfer Dep :=
  operands.foldlM (fun fact v => return fact.join (← env.operand user v)) fact

/-- The fact of an incoming value of a phi; one that has not been analysed yet is unknown. -/
def incomingFact (user v : ValueId) : Transfer Dep := do
  match env.program.role v with
  | .constant | .global => return .independent
  | .argument => env.param v
  | .instruction =>
    if env.program.isAlloca v then return .independent
    else
      modify (·.record [v] (.inst user))
      return (← get).values.fact v

def phi (user : ValueId) (incoming : List ValueId) : Transfer Dep :=
  incoming.foldlM (fun fact v => return fact.join (← env.incomingFact user v)) .unknown

def pointer (v : ValueId) : Transfer Pointer :=
  match env.program.pointer? v with
  | some pointer => return pointer
  | none => throw (.endlessAddress v)

/-- The slots that a pointer may lead to, with the failed queries noted. -/
def aliasingSlots (v : ValueId) : Transfer (List ValueId) := do
  modify (·.warn (env.aliasWarnings v env.context.slots))
  return env.aliases v env.context.slots

def readSlot (user slot : ValueId) : Transfer Dep := do
  let fact := (← get).slotFact slot
  modify (·.noteRead user slot)
  return fact

/-- Joins a fact into every slot that a pointer may lead to. -/
def blendAliasing (v : ValueId) (fact : Dep) (keys : List ValueId) : Transfer Unit := do
  let slots ← env.aliasingSlots v
  modify (·.blendAll slots fact keys)

/-- A load takes the content of the slot it reads. If it does not read a tracked slot it depends on
what the pointer was derived from, and on every slot that the pointer may lead to. -/
def load (user v : ValueId) : Transfer Dep := do
  match ← env.pointer v with
  | .slot slot whole =>
    let fact ← readSlot user slot
    if whole then return fact else return fact.join (← env.operand user v)
  | .param root | .untraced root =>
    let fact := (Fact.on root).join (← env.operand user v)
    (← env.aliasingSlots v).foldlM (fun fact slot => return fact.join (← readSlot user slot)) fact

/-- A store replaces the content of the slot it writes. A store to an element joins the stored fact
and that of the address into the slot; a store that does not write a tracked slot joins the stored
fact into every slot that the pointer may lead to. -/
def store (user value v : ValueId) : Transfer Dep := do
  let fact ← env.operand user value
  let keys := env.keys value
  match ← env.pointer v with
  | .slot slot true => modify (·.overwrite slot fact keys)
  | .slot slot false =>
    let written := fact.join (← env.operand user v)
    modify (·.blend slot written (keys ++ env.keys v))
  | .param root =>
    modify (·.writeOut root fact keys)
    env.blendAliasing v fact keys
  | .untraced _ => env.blendAliasing v fact keys
  return fact

def passArg (callee : FuncId) (position : Nat) (v : ValueId) (fact : Dep) : Transfer Unit := do
  unless env.program.role v == .constant do
    modify (·.passArg ⟨callee, position⟩ fact (env.keys v))

def joinArgs (user : ValueId) (callee : Option FuncId) (position : Nat) (fact : Dep) :
    List ValueId → Transfer Dep
  | [] => return fact
  | v :: rest => do
    let passed ← env.operand user v
    if let some f := callee then env.passArg f position v passed
    joinArgs user callee (position + 1) (fact.join passed) rest

/-- What a pointer leads to comes back from an input function holding input. -/
def fill (input : Dep) (v : ValueId) : Transfer Unit := do
  match ← env.pointer v with
  | .slot slot _ => modify (·.blend slot input [])
  | .param root =>
    modify (·.writeOut root input [])
    env.blendAliasing v input []
  | .untraced _ => env.blendAliasing v input []

/-- A call joins its arguments. The call of an input function depends on itself as well, and so does
all that its pointers lead to. -/
def call (user : ValueId) (callee : Option FuncId) (args : List ValueId) : Transfer Dep := do
  let fact ← env.joinArgs user callee 0 .independent args
  if callee.any env.context.isInputFunction then
    let input := Fact.on user
    args.forM (env.fill input)
    return fact.join input
  else return fact

def ret (user : ValueId) : Option ValueId → Transfer Dep
  | none => return .independent
  | some v => do
    let fact ← env.operand user v
    modify (·.passReturn fact (env.keys v))
    return fact

def instruction (i : ValueId) : Transfer Dep :=
  match env.program.definition? i with
  | some (.phi incoming) => env.phi i (incoming.map (·.1))
  | some (.inst (.load pointer)) => env.load i pointer
  | some (.inst (.store value pointer)) => env.store i value pointer
  | some (.inst (.call callee args)) => env.call i callee args
  | some (.inst (.ret value)) => env.ret i value
  | some (.inst (.condbr condition _ _)) => env.operand i condition
  | some (.inst (.tbz tested _ _ _)) => env.operand i tested
  | some d => env.joinOperands i .independent d.operands
  | none => return .independent

/-- Analyses the instructions of a block in order. -/
def analyze : Transfer Unit := do
  (env.program.instructions (← get).block).forM fun i => do
    let fact ← env.instruction i
    modify (·.setInstruction env.program i fact)
  modify (·.settleInstructions env.program)

end Env

end InputFlow
