import PathScout.FingerprintMap
import PathScout.Options
import PathScout.PathGraph

/-!
# Pending nodes

* `Visits`: how often a path entered each block, frame by frame.
* `Pending`: a node that is to be continued, with the visits of its path.
* `Worklist`: the pending nodes, in an order of search.
-/

namespace PathScout

/-- A block in a frame. -/
structure FrameBlock where
  frame : FrameId
  block : BlockId
deriving DecidableEq

instance : Ord FrameBlock where
  compare a b :=
    (compare a.frame.index b.frame.index).then (compare a.block.index b.block.index)

instance : Feed FrameBlock := ⟨fun b => [.ofNat b.frame.index, .ofNat b.block.index]⟩

/-- How often a path entered each block. -/
abbrev Visits := FingerprintMap FrameBlock Nat

namespace Visits

/-- How often a block was entered in a frame. -/
def count (v : Visits) (f : FrameId) (b : BlockId) : Nat := (v.get? ⟨f, b⟩).getD 0

/-- One more visit of a block. -/
def enter (v : Visits) (f : FrameId) (b : BlockId) : Visits :=
  v.insert Feed.digest ⟨f, b⟩ (v.count f b + 1)

end Visits

/-- A node that is to be continued. -/
structure Pending where
  node : NodeId
  visits : Visits

/-- Pending nodes; the next one stands first. -/
structure Worklist where
  order : SearchOrder
  pending : List Pending := []

namespace Worklist

/-- Adds a node: as the next one in depth-first order, as the last one in breadth-first order. -/
def push (w : Worklist) (p : Pending) : Worklist :=
  match w.order with
  | .depthFirst => { w with pending := p :: w.pending }
  | .breadthFirst => { w with pending := w.pending ++ [p] }

/-- The next node and the others. -/
def pop? (w : Worklist) : Option (Pending × Worklist) :=
  match w.pending with
  | [] => none
  | p :: rest => some (p, { w with pending := rest })

/-- The number of pending nodes. -/
def size (w : Worklist) : Nat := w.pending.length

/-- Gives all pending nodes up. -/
def clear (w : Worklist) : Worklist := { w with pending := [] }

end Worklist

end PathScout
