import InputFlow.Graph.Flow
import Std.Data.ExtTreeMap
import Std.Data.ExtTreeSet

namespace InputFlow

namespace Graph

/-- A search for cut vertices in progress: the nodes met, numbered in the order of meeting, and the cut
vertices among those left. -/
structure CutSearch where
  number : Std.ExtTreeMap Nat Nat := ∅
  cuts : Std.ExtTreeSet Nat := ∅

def CutSearch.enter (s : CutSearch) (node : Nat) : CutSearch :=
  { s with number := s.number.insert node s.number.size }

/-- A node whose neighbours are being gone through: the lowest number that an edge from the node or from
a branch below it leads to, and how many of these branches have no edge to a node above it. -/
structure Scan where
  search : CutSearch
  low : Nat
  severed : Nat := 0

namespace Scan

/-- Takes the next neighbour of a node with the given parent and number. One that has been met lowers
`low` unless it is the parent; from any other `explore` goes on with a new branch. -/
def step (explore : Nat → CutSearch → CutSearch × Nat) (parent : Option Nat) (number : Nat)
    (scan : Scan) (neighbour : Nat) : Scan :=
  match scan.search.number[neighbour]? with
  | some met => if parent = some neighbour then scan else { scan with low := min scan.low met }
  | none =>
    let (search, low) := explore neighbour scan.search
    { search
      low := min scan.low low
      severed := if number ≤ low then scan.severed + 1 else scan.severed }

/-- The search when a node has been gone through. Below the root every branch is severed. -/
def leave (scan : Scan) (parent : Option Nat) (node : Nat) : CutSearch :=
  if (if parent.isSome then 0 else 1) < scan.severed then
    { scan.search with cuts := scan.search.cuts.insert node }
  else scan.search

end Scan

/-- Searches on from a node that has not been met, and returns the lowest number that an edge of the new
branch leads to. The fuel bounds the depth: a graph of `n` nodes needs at most `n`. -/
def explore (next : Nat → List Nat) : Nat → Option Nat → Nat → CutSearch → CutSearch × Nat
  | 0, _, _, s => (s, 0)
  | fuel + 1, parent, node, s =>
    let number := s.number.size
    let scan := (next node).foldl (Scan.step (explore next fuel (some node)) parent number)
      { search := s.enter node, low := number }
    (scan.leave parent node, scan.low)

/-- The cut vertices of what can be reached from a node of an undirected graph with at most `size`
nodes. -/
def cutVertices (next : Nat → List Nat) (size : Nat) (root : Nat) : Std.ExtTreeSet Nat :=
  (explore next size none root {}).1.cuts

end Graph

namespace Flow

/-- The other reachable blocks that an edge in either direction joins with a block. -/
def neighbours (flow : Flow) (b : BlockId) : List BlockId :=
  let after := flow.succs b
  flow.order.filter fun c => c != b && (after.contains c || (flow.succs c).contains b)

def adjacency (flow : Flow) : Std.ExtTreeMap BlockId (List BlockId) :=
  .ofList (flow.order.map fun b => (b, flow.neighbours b))

end Flow

namespace Program

def returns (p : Program) (b : BlockId) : Bool :=
  (p.instructions b).any fun i => p.kind i == .ret

/-- The entry block, the cut vertices and the returning blocks, in the order of the flow. -/
def cutVertices (p : Program) (flow : Flow) : List BlockId :=
  match flow.order with
  | [] => []
  | entry :: _ =>
    let adjacency := flow.adjacency
    let cuts := Graph.cutVertices (fun b => adjacency.getD b []) flow.order.length entry
    flow.order.filter fun b => b == entry || p.returns b || cuts.contains b

end Program

end InputFlow
