import InputFlow.Program.Query

namespace InputFlow

/-- The numbers a definition refers to: values, then blocks, then literals. -/
def Definition.slots {κ : Type} : Definition ValueId BlockId κ → List Nat
  | .phi incoming => incoming.map (·.1) ++ incoming.map (·.2)
  | .inst code => code.operands ++ code.targets ++ code.literals
  | _ => []

/-- Where the slots of a block's values and its successors stand in the table. -/
structure BlockSlots where
  values : List (ValueId × Span)
  successors : Span

namespace Program

variable (p : Program)

def slots (v : ValueId) : List Nat :=
  match p.definition? v with
  | some d => d.slots
  | none => []

/-- The operands of all blocks: the slots of the values of a block, then its successors. -/
def operandTable : List Nat :=
  (List.range p.blocks.size).flatMap fun b => (p.blockValues b).flatMap p.slots ++ p.successors b

/-- The places of the slots of values that follow one another from `start`. -/
def placeValues (start : Nat) : List ValueId → List (ValueId × Span)
  | [] => []
  | v :: rest =>
    let stop := start + (p.slots v).length
    (v, ⟨start, stop⟩) :: placeValues stop rest

def placeBlocks (start : Nat) : List BlockId → List BlockSlots
  | [] => []
  | b :: rest =>
    let values := p.placeValues start (p.blockValues b)
    let middle := start + ((p.blockValues b).flatMap p.slots).length
    let stop := middle + (p.successors b).length
    ⟨values, ⟨middle, stop⟩⟩ :: placeBlocks stop rest

def placement : List BlockSlots :=
  p.placeBlocks 0 (List.range p.blocks.size)

def readTable (start count : Nat) : List Nat :=
  (p.operandTable.drop start).take count

/-- An operand in a listing; a global has its mark. -/
def operandText (v : ValueId) : String :=
  match p.values[v]? with
  | some ⟨name, .global⟩ => "@" ++ name
  | some value => value.name
  | none => s!"<{v}>"

/-- Numbers shown as targets; one that no block has is left out. -/
def targetLines (numbers : List Nat) : List String :=
  numbers.filterMap fun b => p.blocks[b]?.map fun block => s!"Op ^{block.name}"

def heading (name : String) (code : Code ValueId BlockId (Option FuncId)) : List String :=
  let title := if name.isEmpty then s!"Value ({code.opcode.mnemonic})"
    else s!"Value {name} ({code.opcode.mnemonic})"
  let callee := match code with
    | .call (some f) _ => (p.functions[f]?.map fun target => s!"Target {target.name}").toList
    | _ => []
  title :: callee

/-- The lines of a phi whose slots start at `start`: as many values, and then as many blocks. -/
def phiLines (start count : Nat) (name : String) : List String :=
  s!"PHI {name}" :: ((p.readTable start count).zip (p.readTable (start + count) count)).filterMap
    fun i => p.blocks[i.2]?.map fun block => s!"{p.operandText i.1} from {block.name}"

/-- The lines of code whose slots start at `start` in a block with the given number of successors.
How many targets and literals are read depends on the operation alone. An operation with a free number
of targets is given one for each successor of its block. -/
def codeLines (start successors : Nat) (name : String)
    (code : Code ValueId BlockId (Option FuncId)) : List String :=
  let operands := code.operands.length
  let targets := code.opcode.targetCount?.getD successors
  p.heading name code ++
    (p.readTable start operands).map (fun v => s!"Op {p.operandText v}") ++
    p.targetLines (p.readTable (start + operands) targets) ++
    (p.readTable (start + operands + targets) code.opcode.literalCount).map fun n => s!"Op ${n}"

def valueLines (successors : Nat) (v : ValueId × Span) : List String :=
  match p.values[v.1]? with
  | some ⟨name, .phi incoming⟩ => p.phiLines v.2.start incoming.length name
  | some ⟨name, .inst code⟩ => p.codeLines v.2.start successors name code
  | _ => []

def blockLines (b : BlockId) (slots : BlockSlots) : List String :=
  let count := slots.successors.stop - slots.successors.start
  let successors := p.readTable slots.successors.start count
  s!"Block {p.blockName b}" ::
    (successors.filterMap fun s => p.blocks[s]?.map fun block => s!"Succ {block.name}") ++
    slots.values.flatMap (p.valueLines count)

def functionLines (f : Function) : List String :=
  let title := if f.isDeclaration then s!"Extern function {f.name}" else s!"Function {f.name}"
  let blocks := f.blocks.toList
  title :: f.params.toList.map (fun v => s!"Argument {p.valueName v}") ++
    (blocks.zip (p.placement.drop f.blocks.start)).flatMap fun b => p.blockLines b.1 b.2

/-- The globals, functions, blocks and instructions of a program, an item a line. -/
def listing : String :=
  let lines := "Printing IR" :: p.globals.map (fun g => s!"Global {p.valueName g}") ++
    p.functions.toList.flatMap p.functionLines
  "".intercalate (lines.map (· ++ "\n"))

end Program

end InputFlow
