import InputFlow.Program.Basic

namespace InputFlow

inductive Role where
  | constant | argument | global | instruction
deriving DecidableEq, Repr

/-- The kinds of instructions an analysis tells apart. -/
inductive Kind where
  | phi | alloca | load | store | elementAddress | call | conditional | branch | ret | other
deriving DecidableEq, Repr

namespace Kind

def isTerminator : Kind → Bool
  | conditional | branch | ret => true
  | _ => false

end Kind

namespace Opcode

def kind : Opcode → Kind
  | alloca => .alloca
  | load => .load
  | store => .store
  | gep => .elementAddress
  | call => .call
  | condbr | tbz => .conditional
  | br | jump | terminate => .branch
  | ret => .ret
  | any | add | sub | mul | cmp | const => .other

end Opcode

namespace Program

variable (p : Program)

def definition? (v : ValueId) : Option (Definition ValueId BlockId (Option FuncId)) :=
  p.values[v]?.map (·.definition)

def code? (v : ValueId) : Option (Code ValueId BlockId (Option FuncId)) :=
  match p.definition? v with
  | some (.inst code) => some code
  | _ => none

def opcode? (v : ValueId) : Option Opcode :=
  (p.code? v).map (·.opcode)

/-- The name of a value, empty if it has none. -/
def valueName (v : ValueId) : String :=
  match p.values[v]? with
  | some value => value.name
  | none => ""

def role (v : ValueId) : Role :=
  match p.definition? v with
  | some .global => .global
  | some .param => .argument
  | some (.inst (.const _)) => .constant
  | _ => .instruction

def isPhi (v : ValueId) : Bool :=
  match p.definition? v with
  | some (.phi _) => true
  | _ => false

def isAlloca (v : ValueId) : Bool :=
  match p.definition? v with
  | some (.inst (.alloca _ _)) => true
  | _ => false

def isConst (v : ValueId) : Bool :=
  match p.definition? v with
  | some (.inst (.const _)) => true
  | _ => false

def kind (i : ValueId) : Kind :=
  match p.definition? i with
  | some (.phi _) => .phi
  | some (.inst code) => code.opcode.kind
  | _ => .other

def operands (i : ValueId) : List ValueId :=
  match p.definition? i with
  | some d => d.operands
  | none => []

/-- The incoming values of a phi with the blocks they come from. -/
def incoming (i : ValueId) : List (ValueId × BlockId) :=
  match p.definition? i with
  | some (.phi incoming) => incoming
  | _ => []

/-- The function an instruction calls, where it is known. -/
def callee? (i : ValueId) : Option FuncId :=
  match p.definition? i with
  | some (.inst (.call callee _)) => callee
  | _ => none

/-- Whether an instruction produces a value that others can use. -/
def hasResult (i : ValueId) : Bool :=
  match p.values[i]? with
  | some ⟨_, .phi _⟩ => true
  | some ⟨name, .inst code⟩ => code.opcode.isDefinition && !name.isEmpty
  | _ => false

/-- The values that stand in a block, constants included. -/
def blockValues (b : BlockId) : List ValueId :=
  match p.blocks[b]? with
  | some block => block.values.toList
  | none => []

/-- The instructions of a block in order. A constant is written in a block and is no instruction. -/
def instructions (b : BlockId) : List ValueId :=
  (p.blockValues b).filter fun i => !p.isConst i

def targets (i : ValueId) : List BlockId :=
  match p.definition? i with
  | some d => d.targets
  | none => []

/-- The blocks control may go to from a block: the targets of its instructions, in order. -/
def successors (b : BlockId) : List BlockId :=
  (p.blockValues b).flatMap p.targets

def blockName (b : BlockId) : String :=
  match p.blocks[b]? with
  | some block => block.name
  | none => ""

def functionIds : List FuncId :=
  List.range p.functions.size

def functionName (f : FuncId) : String :=
  match p.functions[f]? with
  | some function => function.name
  | none => ""

def isDeclaration (f : FuncId) : Bool :=
  match p.functions[f]? with
  | some function => function.isDeclaration
  | none => true

def params (f : FuncId) : List ValueId :=
  match p.functions[f]? with
  | some function => function.params.toList
  | none => []

def functionBlocks (f : FuncId) : List BlockId :=
  match p.functions[f]? with
  | some function => function.blocks.toList
  | none => []

/-- The block where a function starts, if it has a body with a block. -/
def entryBlock? (f : FuncId) : Option BlockId :=
  if p.isDeclaration f then none else (p.functionBlocks f).head?

def functionNamed? (name : String) : Option FuncId :=
  p.functionIds.find? fun f => p.functionName f == name

def blockNamed? (f : FuncId) (name : String) : Option BlockId :=
  (p.functionBlocks f).find? fun b => p.blockName b == name

/-- The first value of a function with the name: its parameters, then its blocks in order. -/
def valueNamed? (f : FuncId) (name : String) : Option ValueId :=
  (p.params f ++ (p.functionBlocks f).flatMap p.blockValues).find? fun v => p.valueName v == name

/-- The first value of a function with the name, unless it is a parameter. -/
def instructionNamed? (f : FuncId) (name : String) : Option ValueId :=
  (p.valueNamed? f name).filter fun v => p.role v != .argument

def terminator? (b : BlockId) : Option ValueId :=
  (p.blockValues b).getLast?

def globalNamed? (name : String) : Option ValueId :=
  p.globals.find? fun g => p.valueName g == name

/-- The program as seen by one who cannot tell which functions are called, where the values of a phi
come from, and which globals there are. -/
def coarse : Program :=
  { p with
    globals := []
    values := p.values.map fun v =>
      { v with
        definition := match v.definition with
          | .phi _ => .phi []
          | .inst (.call _ args) => .inst (.call none args)
          | d => d } }

end Program

end InputFlow
