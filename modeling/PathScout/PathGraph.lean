import PathScout.Point
import PathScout.State

/-!
# Graphs of paths

A node is a point of a path and the state there. Asking for a node that exists already gives that
one, so paths that come to the same point in the same state continue together. A sink ends its
paths.

* `PathNode`, `PathGraph`: nodes with numbers, and the steps between them.
* `PathGraph.add`: the number of a node, given to it now if it is new.
* `PathGraph.addEdge`: a step between two nodes; no step is recorded twice, and none from a node
  to itself.
-/

namespace PathScout

/-- The number of a node. -/
structure NodeId where
  index : Nat
deriving DecidableEq, Hashable, Inhabited

/-- A point and the state there. Sinks are where paths end early. -/
structure PathNode where
  point : Point
  state : State
  sink : Bool
deriving DecidableEq, Hashable

/-- Nodes, and the steps from and to each of them in the order in which they were found. -/
structure PathGraph where
  nodes : Interned PathNode := ∅
  incoming : Array (List NodeId) := #[]
  outgoing : Array (List NodeId) := #[]
  roots : List NodeId := []

namespace PathGraph

/-- The number of nodes. -/
def size (g : PathGraph) : Nat := g.nodes.size

/-- The node with the given number. -/
def node? (g : PathGraph) (n : NodeId) : Option PathNode := g.nodes.get? n.index

/-- The state at a node. -/
def state (g : PathGraph) (n : NodeId) : State := ((g.node? n).map (·.state)).getD {}

/-- The point of a node. -/
def point (g : PathGraph) (n : NodeId) : Point :=
  ((g.node? n).map (·.point)).getD ⟨.entry, ⟨0⟩, none⟩

/-- The nodes that lead to a node. -/
def preds (g : PathGraph) (n : NodeId) : List NodeId := g.incoming[n.index]?.getD []

/-- The nodes that a node leads to. -/
def succs (g : PathGraph) (n : NodeId) : List NodeId := g.outgoing[n.index]?.getD []

/-- The nodes by number. -/
def ids (g : PathGraph) : List NodeId := (List.range g.size).map NodeId.mk

/-- The number of a node, and whether it is new. -/
def add : PathGraph → PathNode → (NodeId × Bool) × PathGraph
  | ⟨nodes, incoming, outgoing, roots⟩, node =>
    let before := nodes.size
    let (i, nodes) := nodes.intern node
    if nodes.size = before then ((⟨i⟩, false), ⟨nodes, incoming, outgoing, roots⟩)
    else ((⟨i⟩, true), ⟨nodes, incoming.push [], outgoing.push [], roots⟩)

/-- Makes a node one where paths start. -/
def addRoot (g : PathGraph) (n : NodeId) : PathGraph :=
  if g.roots.contains n then g else { g with roots := g.roots ++ [n] }

/-- Records the step from one node to another. -/
def addEdge (g : PathGraph) (source target : NodeId) : PathGraph :=
  if source = target ∨ source ∈ g.preds target then g
  else
    { g with
      incoming := g.incoming.modify target.index (· ++ [source])
      outgoing := g.outgoing.modify source.index (· ++ [target]) }

/-- The nodes at a point, whoever made them. -/
def nodesAt (g : PathGraph) (p : Point) : List NodeId :=
  g.ids.filter fun n => (g.point n).untagged = p.untagged

end PathGraph

end PathScout
