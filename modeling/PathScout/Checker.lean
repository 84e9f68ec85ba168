/-!
# Checkers

* `Checker`: what the analysis looks for.
* `Checker.name`, `Checker.ofName?`: the names that options use for them.
-/

namespace PathScout

/-- The kinds of defect that are looked for, and the knowledge of functions that do not return. -/
inductive Checker where
  | nullDereference
  | undefinedValue
  | divideZero
  | stackAddressEscape
  | malloc
  | noReturn
deriving DecidableEq, Hashable

namespace Checker

/-- All checkers, in the order in which they are asked by default. -/
def all : List Checker :=
  [nullDereference, undefinedValue, divideZero, stackAddressEscape, malloc, noReturn]

/-- The name of a checker. -/
def name : Checker → String
  | nullDereference => "core.NullDereference"
  | undefinedValue => "core.UndefinedValue"
  | divideZero => "core.DivideZero"
  | stackAddressEscape => "core.StackAddressEscape"
  | malloc => "unix.Malloc"
  | noReturn => "core.NoReturnFunctions"

/-- The checker with the given name. -/
def ofName? (s : String) : Option Checker := all.find? fun c => c.name == s

end Checker

end PathScout
