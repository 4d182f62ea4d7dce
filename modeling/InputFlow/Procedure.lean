import InputFlow.Block.Revision
import InputFlow.Graph.Flow

namespace InputFlow

abbrev Blocks := Std.ExtTreeMap BlockId BlockState

/-- The facts of a function: those of its reachable blocks and instructions, and those on the
memory behind its parameters, the arguments of its calls and what it returns. -/
structure Procedure where
  func : FuncId
  order : List BlockId
  inputs : Std.ExtTreeSet ValueId
  blocks : Blocks
  instructions : FactMap
  outArgs : FactMap
  callArgs : Facts CallArg
  returned : Option Dep

namespace Procedure

def instruction? (r : Procedure) (i : ValueId) : Option Dep :=
  r.instructions[i]?

def isDependent (r : Procedure) (i : ValueId) : Bool :=
  (r.instruction? i).any (·.isDependent)

def dependentInstructions (r : Procedure) : List ValueId :=
  r.instructions.keys.filter r.isDependent

def exitFact? (r : Procedure) (b : BlockId) (v : ValueId) : Option Dep := do
  (← r.blocks[b]?).values[v]?

def ofBlocks (context : Context) (order : List BlockId) (blocks : Blocks) : Procedure :=
  let states := blocks.toList.map (·.2)
  { func := context.func
    order
    inputs := context.inputs
    blocks
    instructions := states.foldl (fun m s => m ∪ s.instructions) ∅
    outArgs := (Facts.joinAll (states.map (·.outArgs))).settle
    callArgs := (Facts.joinAll (states.map (·.callArgs))).settle
    returned := match states.filterMap (·.returned) with
      | [] => none
      | facts => some (Fact.joinAll facts).settle }

/-- The blocks that an instruction of block `b` makes depend on input: a branch on a dependent
condition all successors of its block, and a dependent phi its own block. -/
def marks (r : Procedure) (p : Program) (b : BlockId) (i : ValueId) : List BlockId :=
  if r.isDependent i then
    match p.kind i with
    | .conditional => p.successors b
    | .phi => [b]
    | _ => []
  else []

/-- Whether it depends on input if a block is executed, or what it merges. -/
def isNonDeterministic (r : Procedure) (p : Program) (b : BlockId) : Bool :=
  r.order.any fun c => (p.instructions c).any fun i => (r.marks p c i).contains b

def nonDeterministicBlocks (r : Procedure) (p : Program) : List BlockId :=
  r.order.filter (r.isNonDeterministic p)

end Procedure

namespace Env

variable (env : Env) (flow : Flow) (initial : FactMap)

def exits (blocks : Blocks) (b : BlockId) : List FactMap :=
  (flow.preds b).filterMap fun u => blocks[u]?.map (·.values)

/-- Analyses a block with the facts of the first predecessor that has been analysed. -/
def enter (blocks : Blocks) (b : BlockId) : Except AnalysisError Blocks :=
  let entry := (exits flow blocks b).headD initial
  match env.analyze.run { block := b, entry } with
  | .ok _ state => .ok (blocks.insert b state)
  | .error error _ => .error error

def reviseBlock (release : Bool) (blocks : Blocks) (b : BlockId) : Blocks × Outcome :=
  match blocks[b]? with
  | some state =>
    let (state, outcome) := state.revise env.program (exits flow blocks b) initial release
    (blocks.insert b state, outcome)
  | none => (blocks, {})

/-- The places in the order of the successors of a block that are among `members`. -/
def followers (members : List BlockId) (b : BlockId) : List Nat :=
  ((flow.succs b).filter members.contains).filterMap flow.index?

/-- Revises the blocks of a loop at most `steps` times, always the first in the order that is
pending, until none is. A block is pending until it is revised, and again whenever the end of a
predecessor changes. -/
def settle (rounds : Nat) (members : List BlockId) :
    Nat → Std.ExtTreeSet Nat → Blocks → Except AnalysisError Blocks
  | 0, pending, blocks =>
    if pending.isEmpty then .ok blocks else .error (.diverged env.context.func rounds)
  | steps + 1, pending, blocks =>
    match pending.toList.head? with
    | none => .ok blocks
    | some place =>
      let rest := pending.erase place
      match flow.order[place]? with
      | none => settle rounds members steps rest blocks
      | some b =>
        let (blocks, outcome) := env.reviseBlock flow initial false blocks b
        let again := if outcome.exitChanged then followers flow members b else []
        settle rounds members steps (rest.insertMany again) blocks

/-- The number of revisions a loop may take; it is counted in 64 bits. -/
def stepLimit (rounds blocks : Nat) : Nat :=
  min (rounds * blocks) (UInt64.size - 1)

/-- Analyses the blocks of a component whose predecessors outside have final facts. -/
def component (rounds : Nat) (blocks : Blocks) (c : Component) : Except AnalysisError Blocks := do
  let blocks ← c.blocks.foldlM (env.enter flow initial) blocks
  let blocks ← if c.isCyclic then
      env.settle flow initial rounds c.blocks (stepLimit rounds c.blocks.length)
        (Std.ExtTreeSet.ofList (c.blocks.filterMap flow.index?)) blocks
    else
      match c.blocks.find? fun b => 1 < (flow.preds b).length with
      | some b => pure (env.reviseBlock flow initial true blocks b).1
      | none => pure blocks
  return c.blocks.foldl (fun blocks b => blocks.modify b (·.conclude initial)) blocks

/-- Analyses a function in its context. Its strongly connected components are taken in topological
order. A block is first analysed with the facts of one predecessor; a block with several is then
revised for all of them, and the blocks of a loop are revised until nothing changes. -/
def run (rounds : Nat) : Except AnalysisError Procedure := do
  let f := env.context.func
  if (env.program.entryBlock? f).isNone then throw (.missingEntry f)
  let flow := env.program.flow f
  let initial := env.context.initialFacts env.program
  let blocks ← flow.components.foldlM (env.component flow initial rounds) ∅
  return Procedure.ofBlocks env.context flow.order blocks

end Env

namespace Program

def analyzeFunction (p : Program) (oracle : Oracle) (s : Settings) (f : FuncId)
    (extra : List ValueId) : Except AnalysisError Procedure :=
  Env.run ⟨p, oracle, Context.ofSettings p s f extra⟩ s.maxRounds

end Program

end InputFlow
