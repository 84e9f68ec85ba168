import PathScout.Checker
import PathScout.Store.Policy

/-!
# Options of an analysis

* `Settings κ`: all options, where checkers are given as `κ`.
* `Options`: options that name checkers that exist. `Settings.validate` makes them from names.
* `OptionsError`: what may be wrong with options, with `OptionsError.message`.
-/

namespace PathScout

/-- What to do when a block was entered as often as allowed: give the path up, or go on once with
everything forgotten that the loop may change. -/
inductive LoopExhaustion where
  | sink | widen
deriving DecidableEq

/-- Which of the pending nodes comes next: the newest, or the oldest. -/
inductive SearchOrder where
  | depthFirst | breadthFirst
deriving DecidableEq

/-- How much of a path is told: all jumps, or only those with something to say. -/
inductive PathScheme where
  | minimal | extensive
deriving DecidableEq

/-- The word for what to do when loops are exhausted. -/
def LoopExhaustion.word : LoopExhaustion → String
  | sink => "sink"
  | widen => "widen"

/-- The word for an order of search. -/
def SearchOrder.word : SearchOrder → String
  | depthFirst => "dfs"
  | breadthFirst => "bfs"

/-- The word for a scheme. -/
def PathScheme.word : PathScheme → String
  | minimal => "minimal"
  | extensive => "extensive"

/-- All options. -/
structure Settings (κ : Type) where
  maxBlockVisits : Nat := 4
  maxNodes : Nat := 150000
  /-- The time after which an analysis may stop, in milliseconds. It is only recorded here. -/
  timeout : Option Nat := none
  loopExhaustion : LoopExhaustion := .widen
  searchOrder : SearchOrder := .depthFirst
  pathScheme : PathScheme := .extensive
  inlineCalls : Bool := true
  maxInlineDepth : Nat := 4
  store : StorePolicy := .region
  invalidateGlobals : Bool := true
  parallel : Bool := false
  checkers : List κ

/-- Options whose checkers are known. -/
abbrev Options := Settings Checker

/-- What may be wrong with options. -/
inductive OptionsError where
  | malformed
  | range (field : String) (value : Nat) (hint : String)
  | unknownChecker (name : String)
deriving DecidableEq

/-- The text of an error. -/
def OptionsError.message : OptionsError → String
  | malformed => "JSON parsing error"
  | range field value hint => s!"Invalid value {value} for option '{field}': {hint}"
  | unknownChecker name => s!"Unknown checker '{name}'"

/-- The checkers with the given names, or the first name that is not one. -/
def Checker.ofNames (names : List String) : Except OptionsError (List Checker) :=
  names.mapM fun name =>
    match ofName? name with
    | some c => .ok c
    | none => .error (.unknownChecker name)

namespace Settings

/-- The options where nothing is asked for. -/
def standard : Settings String := { checkers := Checker.all.map (·.name) }

/-- Options that make sense, or the first thing that is wrong with them. -/
def validate (s : Settings String) : Except OptionsError Options := do
  if s.maxBlockVisits = 0 then
    throw (.range "max_block_visits" 0 "every block must be enterable at least once")
  if s.maxNodes = 0 then throw (.range "max_nodes" 0 "the node budget must be positive")
  if s.timeout = some 0 then throw (.range "timeout_ms" 0 "omit the option for no timeout")
  if 64 < s.maxInlineDepth then
    throw (.range "max_inline_depth" s.maxInlineDepth "at most 64 nested frames")
  return { s with checkers := ← Checker.ofNames s.checkers }

end Settings

end PathScout
