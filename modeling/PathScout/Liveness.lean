import PathScout.Flow

/-!
# Live variables

A variable is live at a point if some way from there reads it before writing it. Variables whose
address is taken may be read through a pointer at any time and count as live everywhere.

* `VarSet`: sets of variables as increasing lists.
* `Liveness.beforeElement`, `Liveness.beforeBlock`: what is live before a step or a block, given
  what is live after it.
* `Liveness.compute`: the least solution of these equations over a flow graph.
-/

namespace PathScout

/-- A set of variables as an increasing list of their numbers. -/
abbrev VarSet := List Nat

namespace VarSet

/-- Adds a variable. -/
def insert (v : Nat) : VarSet → VarSet
  | [] => [v]
  | w :: ws => if v < w then v :: w :: ws else if v = w then w :: ws else w :: insert v ws

/-- Takes a variable away. -/
def erase (v : Nat) (s : VarSet) : VarSet := s.filter (· != v)

/-- The variables of either set. -/
def union (s t : VarSet) : VarSet := s.foldl (fun u v => insert v u) t

@[simp] theorem mem_insert {v w : Nat} {s : VarSet} : w ∈ insert v s ↔ w = v ∨ w ∈ s := by
  induction s with
  | nil => simp [insert]
  | cons x xs ih => grind [insert]

@[simp] theorem mem_erase {v w : Nat} {s : VarSet} : w ∈ erase v s ↔ w ∈ s ∧ w ≠ v := by
  simp [erase]

end VarSet

/-- What is live at the entrance of each block, apart from the variables whose address is taken,
and those. -/
structure Liveness where
  liveIn : Array VarSet
  addressTaken : VarSet

namespace Liveness

/-- What the equations need to know of a program. -/
structure Scope where
  exprs : Array TypedExpr
  /-- Is the variable one of a single call, so that its life can be followed? -/
  isTracked : VarId → Bool

/-- The variable that an expression names. -/
def Scope.named? (s : Scope) (e : ExprId) : Option VarId :=
  match s.exprs[e.index]? with
  | some ⟨.var v, _, _⟩ => some v
  | _ => none

/-- The operation of an expression. -/
def Scope.op? (s : Scope) (e : ExprId) : Option Operation := (s.exprs[e.index]?).map (·.op)

/-- The expressions that name the variable to which an assignment of the graph writes. -/
def assignedNames (s : Scope) (g : FlowGraph) : List ExprId :=
  g.blocks.toList.flatMap fun b => b.elements.toList.filterMap fun
    | .expr e _ =>
      match s.op? e with
      | some (.assign target _) => (s.named? target).map fun _ => target
      | _ => none
    | _ => none

/-- The variables whose address is taken, by `&` or as arrays that become pointers. -/
def takenAddresses (s : Scope) (g : FlowGraph) : VarSet :=
  g.blocks.foldl (fun acc b => b.elements.foldl (fun acc el =>
    match el with
    | .expr e _ =>
      match s.op? e with
      | some (.addrOf place) | some (.decay place) =>
        match s.named? place with
        | some v => VarSet.insert v.index acc
        | none => acc
      | _ => acc
    | _ => acc) acc) []

/-- What is live before a step. -/
def beforeElement (s : Scope) (assigned : List ExprId) (el : Element) (live : VarSet) : VarSet :=
  match el with
  | .expr e _ =>
    match s.op? e with
    | some (.assign target _) =>
      match s.named? target with
      | some v => VarSet.erase v.index live
      | none => live
    | some (.var v) =>
      if s.isTracked v && !assigned.contains e then VarSet.insert v.index live else live
    | _ => live
  | .decl v _ _ => VarSet.erase v.index live
  | .merge .. | .return .. => live

/-- What is live before a block, given what is live before every block. -/
def beforeBlock (s : Scope) (assigned : List ExprId) (liveIn : Array VarSet) (b : Block) : VarSet :=
  let after := b.terminator.successors.foldl
    (fun acc t => VarSet.union (liveIn[t.index]?.getD []) acc) []
  b.elements.foldr (beforeElement s assigned) after

/-- One round over all blocks, the last one first. -/
def round (s : Scope) (assigned : List ExprId) (g : FlowGraph) (liveIn : Array VarSet) :
    Array VarSet :=
  (List.range g.blocks.size).foldr (fun i acc =>
    match g.blocks[i]? with
    | some b => acc.setIfInBounds i (beforeBlock s assigned acc b)
    | none => acc) liveIn

/-- Repeats rounds until nothing changes, at most `n` times. -/
def iterate (s : Scope) (assigned : List ExprId) (g : FlowGraph) :
    (n : Nat) → Array VarSet → Array VarSet
  | 0, liveIn => liveIn
  | n + 1, liveIn =>
    let next := round s assigned g liveIn
    if next = liveIn then liveIn else iterate s assigned g n next

/-- The live variables of a flow graph. Each round but the last adds a variable to some block, so
`blocks × expressions` rounds are enough. -/
def compute (s : Scope) (g : FlowGraph) : Liveness where
  liveIn := iterate s (assignedNames s g) g (g.blocks.size * s.exprs.size + 1)
    (Array.replicate g.blocks.size [])
  addressTaken := takenAddresses s g

/-- Is the address of the variable taken? -/
def isAddressTaken (l : Liveness) (v : VarId) : Bool := l.addressTaken.contains v.index

/-- Is the variable live when the block is entered? -/
def isLiveAtEntry (l : Liveness) (b : BlockId) (v : VarId) : Bool :=
  l.isAddressTaken v || (l.liveIn[b.index]?.getD []).contains v.index

/-- The variables that are live when the block is entered, in increasing order. -/
def liveAtEntry (l : Liveness) (b : BlockId) : List VarId :=
  (VarSet.union (l.liveIn[b.index]?.getD []) l.addressTaken).map VarId.mk

end Liveness

end PathScout
