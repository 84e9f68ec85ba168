import PathScout.Flow
import PathScout.Interned

/-!
# Stack frames

A frame is one activation of a function: the function, the frame that called it and the place of
the call. Equal chains of calls share one frame.

* `Frames.top`, `Frames.call`: the frame of a function that starts, or is called from a frame.
* `Frames.ancestors`: a frame and the frames that wait for it, the frame itself first.
-/

namespace PathScout

/-- The number of a frame. -/
structure FrameId where
  index : Nat
deriving DecidableEq, Hashable, Inhabited

/-- The place of a call: a step of a block and the expression that calls. -/
structure CallSite where
  block : BlockId
  index : Nat
  expr : ExprId
deriving DecidableEq, Hashable

/-- An activation of a function. -/
structure Frame where
  parent : Option FrameId
  function : FunctionId
  site : Option CallSite
  depth : Nat
deriving DecidableEq, Hashable

/-- The frames met so far. -/
abbrev Frames := Interned Frame

namespace Frames

/-- The frame with a given number. -/
def frame? (t : Frames) (f : FrameId) : Option Frame := t.get? f.index

/-- Gives a frame its number. -/
def add (t : Frames) (frame : Frame) : FrameId × Frames :=
  let (i, t) := t.intern frame
  (⟨i⟩, t)

/-- The frame of a function that nothing calls. -/
def top (t : Frames) (f : FunctionId) : FrameId × Frames := add t ⟨none, f, none, 0⟩

/-- The frame of a function that is called from another frame. -/
def call (t : Frames) (caller : FrameId) (f : FunctionId) (site : CallSite) : FrameId × Frames :=
  let depth := match frame? t caller with
    | some frame => frame.depth + 1
    | none => 0
  add t ⟨some caller, f, some site, depth⟩

/-- The frame that waits for a frame. -/
def caller? (t : Frames) (f : FrameId) : Option FrameId := (frame? t f).bind (·.parent)

/-- A frame and at most `n` of the frames that wait for it. -/
def ancestorsTo (t : Frames) : (n : Nat) → FrameId → List FrameId
  | 0, f => [f]
  | n + 1, f =>
    match caller? t f with
    | some p => f :: ancestorsTo t n p
    | none => [f]

/-- A frame and the frames that wait for it. They are different, so there are no more than there
are frames. -/
def ancestors (t : Frames) (f : FrameId) : List FrameId := ancestorsTo t t.size f

/-- Is the function active in the frame or in one that waits for it? -/
def isOnStack (t : Frames) (f : FrameId) (function : FunctionId) : Bool :=
  (ancestors t f).any fun a => (frame? t a).any (·.function == function)

end Frames

end PathScout
