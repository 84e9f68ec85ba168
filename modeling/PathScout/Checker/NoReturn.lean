import PathScout.Checker.Verdict

/-!
# Functions that do not return

A path ends at the call of a function that never returns.
-/

namespace PathScout.NoReturn

/-- The functions that never return. -/
def names : List String := ["exit", "abort", "_Exit", "__assert_fail"]

/-- Ends the path at a call that never returns. -/
def evalCall? (s : Scene) (call : CallEvent) : Option Verdict :=
  if names.contains call.name then some (.stop s.state []) else none

end PathScout.NoReturn
