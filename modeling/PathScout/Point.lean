import PathScout.Checker
import PathScout.Frame
import PathScout.Program

/-!
# Points of a path

* `Point`: where a path stands, in which frame, and the checker that brought it there.
* `Program.span?`: the piece of source that a point belongs to.
-/

namespace PathScout

/-- The kinds of point on a path through a function. -/
inductive PointKind where
  | entry
  | edge (source target : BlockId)
  | entrance (block : BlockId)
  | before (block : BlockId) (index : Nat)
  | after (block : BlockId) (index : Nat)
  | callEnter (site : CallSite) (callee : FunctionId)
  | callExit (site : CallSite)
  | exit (block : BlockId)
  | finish
deriving DecidableEq, Hashable

/-- A point in a frame. Points that a checker made are told apart by its name. -/
structure Point where
  kind : PointKind
  frame : FrameId
  tag : Option Checker := none
deriving DecidableEq, Hashable

namespace Point

/-- The point as the checker makes it. -/
def tagged (p : Point) (c : Checker) : Point := { p with tag := some c }

/-- The point as the exploration itself makes it. -/
def untagged (p : Point) : Point := { p with tag := none }

end Point

namespace Program

/-- The condition at the end of a block. -/
def terminatorSpan? (p : Program) (b : Block) : Option Span :=
  match b.terminator with
  | .branch cond .. | .switch cond .. => some (p.expr cond).span
  | .goto .. | .exit => none

/-- The first thing in a block: its first step, or else its condition. -/
def startSpan? (p : Program) (b : Block) : Option Span :=
  match b.elements[0]? with
  | some e => some (p.elementSpan e)
  | none => p.terminatorSpan? b

/-- The function that runs in a frame. -/
def functionIn? (p : Program) (fs : Frames) (f : FrameId) : Option Function :=
  (Frames.frame? fs f).map fun frame => p.function frame.function

/-- A block of the function that runs in a frame. -/
def blockIn? (p : Program) (fs : Frames) (f : FrameId) (b : BlockId) : Option Block := do
  (← (← p.functionIn? fs f).body).graph.block? b

/-- A step of the function that runs in a frame. -/
def elementIn? (p : Program) (fs : Frames) (f : FrameId) (b : BlockId) (i : Nat) :
    Option Element := do
  (← p.blockIn? fs f b).elements[i]?

/-- The piece of source that a point belongs to. -/
def span? (p : Program) (fs : Frames) (point : Point) : Option Span := do
  let function ← p.functionIn? fs point.frame
  let body ← function.body
  match point.kind with
  | .entry => return .point function.location
  | .finish => return .point function.last
  | .before b i | .after b i => return p.elementSpan (← p.elementIn? fs point.frame b i)
  | .entrance b =>
    match p.startSpan? (← body.graph.block? b) with
    | some span => return span
    | none => if b = body.graph.exit then return .point function.last else none
  | .exit b | .edge b _ => p.terminatorSpan? (← body.graph.block? b)
  | .callEnter site _ | .callExit site => return (p.expr site.expr).span

end Program

end PathScout
