import Std.Data.HashMap
import PathScout.PathGraph

/-!
# Shortest paths

* `BackSearch`: how far a search back from a node has come.
* `PathGraph.searchBack`: goes back breadth first, until a node is found that nothing leads to.
* `PathGraph.shortestPath?`: a shortest path to a node from a node that nothing leads to.
* `walkBack`: the steps of a path, the last one first.
-/

namespace PathScout

/-- How far a search back from a goal has come: the next node on the way to the goal, for every node
that was met after the goal, and the nodes to go back from. -/
structure BackSearch where
  next : Std.HashMap NodeId NodeId := ∅
  queue : List NodeId

namespace BackSearch

/-- Meets a node that leads to `n`. The goal and the nodes that have a way to it were met before. -/
def meet (goal n : NodeId) (s : BackSearch) (p : NodeId) : BackSearch :=
  if p = goal ∨ p ∈ s.next then s else ⟨s.next.insert p n, s.queue ++ [p]⟩

/-- The way from a node, each node followed by the next one. -/
def follow (next : Std.HashMap NodeId NodeId) : (steps : Nat) → NodeId → List NodeId
  | 0, n => [n]
  | steps + 1, n =>
    match next[n]? with
    | some m => n :: follow next steps m
    | none => [n]

end BackSearch

namespace PathGraph

/-- Goes back from the nodes of the queue, one after the other, until one is found that nothing leads
to. The outcome is that node with the ways that were found, or that there is none, or that the search
did not end within the steps. -/
def searchBack (g : PathGraph) (goal : NodeId) :
    (steps : Nat) → BackSearch → Option (Option (NodeId × Std.HashMap NodeId NodeId))
  | 0, _ => none
  | _ + 1, ⟨_, []⟩ => some none
  | steps + 1, ⟨next, n :: queue⟩ =>
    match g.preds n with
    | [] => some (some (n, next))
    | preds => searchBack g goal steps (preds.foldl (BackSearch.meet goal n) ⟨next, queue⟩)

/-- A shortest path to a node from one that nothing leads to, if the search for it and the way along it
end within the steps. -/
def pathWithin? (g : PathGraph) (steps : Nat) (n : NodeId) : Option (List NodeId) := do
  let found ← g.searchBack n steps { queue := [n] }
  let (root, next) ← found
  let path := BackSearch.follow next steps root
  if path.getLast? = some n then some path else none

/-- A shortest path to a node from one that nothing leads to. Every node enters the queue at most once,
which bounds the steps. -/
def shortestPath? (g : PathGraph) (n : NodeId) : Option (List NodeId) := g.pathWithin? (g.size + 1) n

end PathGraph

/-- The steps of a path, the last one first. -/
def walkBack (path : List NodeId) : List (NodeId × NodeId) := (path.zip path.tail).reverse

end PathScout
