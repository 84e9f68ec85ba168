import PathScout.Report.Finding
import PathScout.State.Reach

/-!
# What checkers see and say

* `CallEvent`: a call with the values of its arguments.
* `Event`: what happens on a path that a checker may have something to say to.
* `Scene`: what a checker sees when it is asked.
* `Verdict`: what it says.
-/

namespace PathScout

/-- A call with the values of its arguments. -/
structure CallEvent where
  expr : ExprId
  callee : FunctionId
  name : String
  args : List Value
  argExprs : List ExprId
  frame : FrameId
  site : CallSite
  /-- Was the call evaluated without looking at the called function? -/
  conservative : Bool := false
  /-- The symbols that memory held which the called function may have changed. -/
  invalidated : List SymbolId := []

/-- What happens on a path. -/
inductive Event where
  | element (e : Element)
  | callBegins (call : CallEvent)
  | callEnds (call : CallEvent)
  | access (location : Value) (place : ExprId)
  | write (location value : Value) (span : Span)
  | condition (cond : ExprId)
  | functionEnds
  | dead (marks : Marks)

/-- What a checker sees: the state, the point it is asked at, how often the block was entered, and
the frames. -/
structure Scene where
  state : State
  point : Point
  visits : Nat
  frames : Frames
  policy : StorePolicy

/-- The value of an expression in the current frame. -/
def Scene.value (s : Scene) (e : ExprId) : Value := s.state.value s.point.frame e

/-- What a checker says: nothing; that the path goes on in some state; the same with findings at a
node of their own; or that the path ends, with findings about why. -/
inductive Verdict where
  | pass
  | proceed (state : State)
  | report (state : State) (findings : List Finding)
  | stop (state : State) (findings : List Finding)

end PathScout
