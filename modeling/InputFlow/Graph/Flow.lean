import InputFlow.Program.Query

namespace InputFlow

namespace Graph

/-- A search in progress: the nodes met, and the nodes left, the last one first. -/
structure Search where
  seen : List Nat := []
  left : List Nat := []

/-- Searches on from a node, unless it has been met. The fuel bounds the depth: a graph of `n` nodes
needs at most `n`. -/
def visit (next : Nat → List Nat) : Nat → Nat → Search → Search
  | 0, _, s => s
  | fuel + 1, node, s =>
    if node ∈ s.seen then s
    else
      let s := (next node).foldl (fun s n => visit next fuel n s) { s with seen := node :: s.seen }
      { s with left := node :: s.left }

/-- The nodes reachable from a node of a graph with at most `size` nodes, in reverse post-order. -/
def reversePostOrder (next : Nat → List Nat) (size : Nat) (root : Nat) : List Nat :=
  (visit next size root {}).left

def reachable (next : Nat → List Nat) (size : Nat) (root : Nat) : List Nat :=
  (visit next size root {}).seen

end Graph

/-- A strongly connected component. Its blocks follow the order of the flow. -/
structure Component where
  blocks : List BlockId
  isCyclic : Bool
deriving DecidableEq, Repr

/-- The control flow of a function. `order` lists the blocks reachable from the entry in reverse
post-order, and `succs` gives the distinct successors of a block. -/
structure Flow where
  order : List BlockId
  succs : BlockId → List BlockId

namespace Flow

def index? (flow : Flow) (b : BlockId) : Option Nat :=
  flow.order.findIdx? (· == b)

def isReachable (flow : Flow) (b : BlockId) : Bool :=
  flow.order.contains b

def preds (flow : Flow) (b : BlockId) : List BlockId :=
  flow.order.filter fun u => (flow.succs u).contains b

def reachableSuccs (flow : Flow) (b : BlockId) : List BlockId :=
  if flow.isReachable b then flow.succs b else []

/-- Whether an edge between reachable blocks does not go forward in the order. -/
def isBackEdge (flow : Flow) (source target : BlockId) : Bool :=
  match flow.index? source, flow.index? target with
  | some s, some t => t ≤ s
  | _, _ => false

def closures (flow : Flow) : List (BlockId × List BlockId) :=
  flow.order.map fun b => (b, Graph.reachable flow.succs flow.order.length b)

def componentOf (flow : Flow) (closures : List (BlockId × List BlockId)) (b : BlockId) : Component :=
  let fromHere := Graph.reachable flow.succs flow.order.length b
  let blocks := (closures.filter fun c => fromHere.contains c.1 && c.2.contains b).map (·.1)
  ⟨blocks, 1 < blocks.length || (flow.succs b).contains b⟩

/-- The order of the search that takes the last successor of a block first. -/
def lastFirstOrder (flow : Flow) : List BlockId :=
  match flow.order with
  | [] => []
  | entry :: _ =>
    Graph.reversePostOrder (fun b => (flow.succs b).reverse) flow.order.length entry

/-- The strongly connected components in topological order: each stands where the search that takes
the last successor first comes to it. -/
def components (flow : Flow) : List Component :=
  let closures := flow.closures
  flow.lastFirstOrder.foldl (fun found b =>
    if found.any (·.blocks.contains b) then found
    else found ++ [flow.componentOf closures b]) []

end Flow

namespace Program

/-- The control flow of a function, empty if it has no body. -/
def flow (p : Program) (f : FuncId) : Flow where
  order := match p.entryBlock? f with
    | some entry => Graph.reversePostOrder p.successors p.blocks.size entry
    | none => []
  succs b := (p.successors b).eraseDups

end Program

end InputFlow
