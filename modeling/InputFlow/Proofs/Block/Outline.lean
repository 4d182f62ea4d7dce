import InputFlow.Block.Transfer
import InputFlow.Proofs.Block.Formula

namespace InputFlow

/-- The content of a slot that an instruction writes; `whole` if it replaces what was there. -/
structure Write where
  slot : ValueId
  whole : Bool
  formula : Formula

/-- What the rules say of the instructions of a block up to some point: the formulas of their facts,
of the contents of the slots they have written, and of their effects, and for which values it was
recorded that the fact of an instruction was derived from them. All this depends on the instructions
alone. -/
structure Outline where
  rules : List (ValueId × Formula) := []
  content : ValueId → Formula := fun v => .ofOrigin (.entry v)
  written : List ValueId := []
  effects : List (Derived × Formula) := []
  reads : List (ValueId × ValueId) := []

namespace Program

def isResult (p : Program) (v : ValueId) : Bool :=
  !p.isAlloca v && p.hasResult v

def isStorage (p : Program) (v : ValueId) : Bool :=
  p.role v == .global || p.isAlloca v

end Program

namespace Outline

def done (σ : Outline) : List ValueId :=
  σ.rules.map (·.1)

/-- Where the fact of a value used at this point comes from. -/
def origin (σ : Outline) (p : Program) (v : ValueId) : Origin :=
  if v ∈ σ.done ∧ p.isResult v then .result v else .entry v

def read (σ : Outline) (user : ValueId) (sources : List ValueId) : Outline :=
  { σ with reads := σ.reads ++ sources.map (·, user) }

def put (σ : Outline) (slot : ValueId) (f : Formula) : Outline :=
  { σ with
    content := fun v => if v = slot then f else σ.content v
    written := slot :: σ.written }

def write (σ : Outline) (w : Write) : Outline :=
  σ.put w.slot (if w.whole then w.formula else (σ.content w.slot).join w.formula)

def addEffect (σ : Outline) (e : Derived × Formula) : Outline :=
  { σ with effects := σ.effects ++ [e] }

def finish (σ : Outline) (i : ValueId) (f : Formula) : Outline :=
  { σ with rules := σ.rules ++ [(i, f)] }

def effect (σ : Outline) (d : Derived) : Formula :=
  .sum ((σ.effects.filter (·.1 = d)).map (·.2))

/-- The formulas of the derived facts. -/
def Defines (σ : Outline) (f : Formula) : Derived → Prop
  | .inst i => (i, f) ∈ σ.rules
  | .slot v => v ∈ σ.written ∧ f = σ.content v
  | d => f = σ.effect d

/-- Whether a fact counts as derived from that of a value. -/
def Edge (σ : Outline) (source : ValueId) : Derived → Prop
  | .inst i => (source, i) ∈ σ.reads
  | .slot v => v ∈ σ.written ∧ source ∈ (σ.content v).sources
  | d => source ∈ (σ.effect d).sources

/-- Every origin that the formulas have is of the given kind. -/
structure OriginsIn (σ : Outline) (p : Program) (P : Origin → Prop) : Prop where
  rules : ∀ r ∈ σ.rules, ∀ o ∈ r.2.origins, P o
  content : ∀ v, p.isStorage v → ∀ o ∈ (σ.content v).origins, P o
  effects : ∀ e ∈ σ.effects, ∀ o ∈ e.2.origins, P o

end Outline

namespace Env

variable (env : Env) (σ : Outline)

def operandFormula (v : ValueId) : Formula :=
  match env.program.role v with
  | .constant | .global => .fixed .independent
  | .argument => .fixed (env.paramFact v)
  | .instruction =>
    if env.program.isAlloca v then .fixed .independent else .ofOrigin (σ.origin env.program v)

def loadFormula (pointer : ValueId) : Formula :=
  match env.program.pointer? pointer with
  | some (.slot s whole) =>
    if whole then σ.content s else (σ.content s).join (env.operandFormula σ pointer)
  | some (.param root) | some (.untraced root) =>
    ((Formula.fixed (.on root)).join (env.operandFormula σ pointer)).join
      (.sum ((env.aliases pointer env.context.slots).map σ.content))
  | none => .fixed .unknown

def rule (i : ValueId) : Formula :=
  match env.program.definition? i with
  | some (.phi incoming) => .sum (incoming.map fun v => env.operandFormula σ v.1)
  | some (.inst (.load pointer)) => env.loadFormula σ pointer
  | some (.inst (.store value _)) => env.operandFormula σ value
  | some (.inst (.call callee args)) =>
    let passed := (Formula.fixed .independent).join (.sum (args.map (env.operandFormula σ)))
    if callee.any env.context.isInputFunction then passed.join (.fixed (.on i)) else passed
  | some (.inst (.ret (some v))) => env.operandFormula σ v
  | some (.inst (.condbr condition _ _)) => env.operandFormula σ condition
  | some (.inst (.tbz tested _ _ _)) => env.operandFormula σ tested
  | some d => (Formula.fixed .independent).join (.sum (d.operands.map (env.operandFormula σ)))
  | none => .fixed .independent

/-- The values that count as sources of an instruction although its fact does not have theirs: the
address of a store to an element. -/
def noted (i : ValueId) : List ValueId :=
  match env.program.definition? i with
  | some (.inst (.store _ pointer)) =>
    match env.program.pointer? pointer with
    | some (.slot _ false) => env.keys pointer
    | _ => []
  | _ => []

def fillWrites (input : Dep) (pointer : ValueId) : List Write :=
  match env.program.pointer? pointer with
  | some (.slot s _) => [⟨s, false, .fixed input⟩]
  | some (.param _) | some (.untraced _) =>
    (env.aliases pointer env.context.slots).map (⟨·, false, .fixed input⟩)
  | none => []

def storeWrites (value pointer : ValueId) : List Write :=
  match env.program.pointer? pointer with
  | some (.slot s true) => [⟨s, true, env.operandFormula σ value⟩]
  | some (.slot s false) =>
    [⟨s, false, (env.operandFormula σ value).join (env.operandFormula σ pointer)⟩]
  | some (.param _) | some (.untraced _) =>
    (env.aliases pointer env.context.slots).map (⟨·, false, env.operandFormula σ value⟩)
  | none => []

def writes (i : ValueId) : List Write :=
  match env.program.definition? i with
  | some (.inst (.store value pointer)) => env.storeWrites σ value pointer
  | some (.inst (.call callee args)) =>
    if callee.any env.context.isInputFunction then args.flatMap (env.fillWrites (.on i)) else []
  | _ => []

def outEffects (f : Formula) (pointer : ValueId) : List (Derived × Formula) :=
  match env.program.pointer? pointer with
  | some (.param root) => [(.outArg root, f)]
  | _ => []

/-- What the arguments of a call, numbered from `position`, pass on. -/
def argEffects (callee : FuncId) (position : Nat) : List ValueId → List (Derived × Formula)
  | [] => []
  | v :: rest =>
    (if env.program.role v == .constant then []
      else [(.callArg ⟨callee, position⟩, env.operandFormula σ v)]) ++
        argEffects callee (position + 1) rest

def effects (i : ValueId) : List (Derived × Formula) :=
  match env.program.definition? i with
  | some (.inst (.store value pointer)) => env.outEffects (env.operandFormula σ value) pointer
  | some (.inst (.call callee args)) =>
    (match callee with
      | some f => env.argEffects σ f 0 args
      | none => []) ++
    (if callee.any env.context.isInputFunction then
      args.flatMap (env.outEffects (.fixed (.on i)))
    else [])
  | some (.inst (.ret (some v))) => [(.returned, env.operandFormula σ v)]
  | _ => []

def loadUses (pointer : ValueId) : List ValueId :=
  match env.program.pointer? pointer with
  | some (.slot _ true) => []
  | _ => [pointer]

def storeUses (value pointer : ValueId) : List ValueId :=
  match env.program.pointer? pointer with
  | some (.slot _ false) => [value, pointer]
  | _ => [value]

/-- The operands whose facts must be known before that of an instruction. -/
def uses (i : ValueId) : List ValueId :=
  match env.program.definition? i with
  | some (.phi _) => []
  | some (.inst (.load pointer)) => env.loadUses pointer
  | some (.inst (.store value pointer)) => env.storeUses value pointer
  | some d => d.operands
  | none => []

/-- The operands whose facts enter into those of an instruction. -/
def inputs (i : ValueId) : List ValueId :=
  match env.program.definition? i with
  | some (.phi incoming) => incoming.map (·.1)
  | _ => env.uses i

def addresses (i : ValueId) : List ValueId :=
  match env.program.definition? i with
  | some (.inst (.load pointer)) => [pointer]
  | some (.inst (.store _ pointer)) => [pointer]
  | some (.inst (.call callee args)) =>
    if callee.any env.context.isInputFunction then args else []
  | _ => []

def Known (E : FactMap) (v : ValueId) : Prop :=
  ∀ k, .entry k ∈ (env.operandFormula σ v).origins → k ∈ E

/-- Whether an instruction has what it needs. -/
def Needs (E : FactMap) (i : ValueId) : Prop :=
  (∀ v ∈ env.uses i, env.Known σ E v) ∧ ∀ v ∈ env.addresses i, env.program.pointer? v ≠ none

/-- What an instruction reads and writes. -/
def perform (i : ValueId) : Outline :=
  (env.effects σ i).foldl Outline.addEffect ((env.writes σ i).foldl Outline.write
    (σ.read i ((env.rule σ i).sources ++ env.noted i)))

def extend (i : ValueId) : Outline :=
  (env.perform σ i).finish i (env.rule σ i)

def outlineOf (is : List ValueId) : Outline :=
  is.foldl env.extend {}

def outline (b : BlockId) : Outline :=
  env.outlineOf (env.program.instructions b)

end Env

end InputFlow
