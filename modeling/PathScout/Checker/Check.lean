import PathScout.Checker.Allocation
import PathScout.Checker.Division
import PathScout.Checker.Garbage
import PathScout.Checker.NoReturn
import PathScout.Checker.StackEscape

/-!
# Asking a checker

* `Checker.check`: what a checker says to an event.
* `Checker.evalCall?`: what a call does, if the checker knows the called function.
-/

namespace PathScout.Checker

/-- What a checker says to an event. -/
def check : Checker → Event → Scene → Naming Verdict
  | nullDereference => NullPointer.check
  | undefinedValue => Garbage.check
  | divideZero => Division.check
  | stackAddressEscape => StackEscape.check
  | malloc => Allocation.check
  | noReturn => fun _ _ => return .pass

/-- What a call does, if the checker knows the called function. -/
def evalCall? (checker : Checker) (call : CallEvent) (s : Scene) : Naming (Option Verdict) :=
  match checker with
  | malloc => Allocation.evalCall? s call
  | noReturn => return NoReturn.evalCall? s call
  | _ => return none

end PathScout.Checker
