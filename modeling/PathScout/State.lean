import PathScout.Constraint
import PathScout.Store.Policy

/-!
# States of a path

A state is all that is known at one point of a path: the values of the expressions that are still
needed, the contents of memory, what is known of symbols, and what became of allocated memory.
States are plain values: two paths that know the same have equal states.

* `EnvKey`, `Environment`: values of expressions, and of what functions return.
* `Allocation`: what became of a piece of allocated memory.
* `State`, with `State.value`, `State.bindExpr`, `State.assume`, `State.known?`, `State.zero?`.
* `State.text`: the memory and the constraints of a state as text.
-/

namespace PathScout

/-- What a value of the environment belongs to: an expression in a frame, or the result of the
function that runs in a frame. -/
inductive EnvKey where
  | expr (frame : FrameId) (expr : ExprId)
  | result (frame : FrameId)
deriving DecidableEq, Hashable

namespace EnvKey

/-- The frame that a key belongs to. -/
def frame : EnvKey → FrameId
  | expr f _ | result f => f

/-- Does the key belong to an expression of the given frame? -/
def isExprOf (f : FrameId) : EnvKey → Bool
  | expr g _ => g == f
  | result _ => false

/-- Expressions come before results, and both are ordered by frame first. -/
def order : EnvKey → EnvKey → Ordering
  | expr f e, expr g d => (compare f.index g.index).then (compare e.index d.index)
  | expr .., result _ => .lt
  | result _, expr .. => .gt
  | result f, result g => compare f.index g.index

instance : Ord EnvKey := ⟨order⟩

end EnvKey

/-- Values of expressions and results. -/
abbrev Environment := OrderedMap EnvKey Value

/-- What became of allocated memory: it is held, it was released, or others may hold it too. -/
inductive AllocationKind where
  | allocated | released | escaped
deriving DecidableEq, Hashable

/-- What became of allocated memory, and the call that it was first seen at. -/
structure Allocation where
  kind : AllocationKind
  origin : ExprId
deriving DecidableEq, Hashable

/-- All that is known at one point of a path. -/
structure State where
  env : Environment := {}
  store : Store := {}
  constraints : Constraints := {}
  heap : OrderedMap SymbolId Allocation := {}
deriving DecidableEq, Hashable

namespace State

/-! ### Values of expressions -/

/-- The value of an expression in a frame. -/
def value (s : State) (f : FrameId) (e : ExprId) : Value := (s.env.get? (.expr f e)).getD .unknown

/-- What the function in a frame returns, if it does already. -/
def result? (s : State) (f : FrameId) : Option Value := s.env.get? (.result f)

/-- Gives an expression a value. -/
def bindExpr (s : State) (f : FrameId) (e : ExprId) (v : Value) : State :=
  { s with env := s.env.insert (.expr f e) v }

/-- Gives the function in a frame its result. -/
def bindResult (s : State) (f : FrameId) (v : Value) : State :=
  { s with env := s.env.insert (.result f) v }

/-- Forgets the values of the expressions of a frame. -/
def clearExprs (s : State) (f : FrameId) : State :=
  { s with env := s.env.filter fun k _ => !k.isExprOf f }

/-- Forgets all values that belong to a frame. -/
def dropFrame (s : State) (f : FrameId) : State :=
  { s with env := s.env.filter fun k _ => k.frame != f }

/-! ### Memory -/

/-- Writes a value. -/
def bind (s : State) (p : StorePolicy) (c : Catalog) (l : Loc) (v : Value) : State :=
  { s with store := p.bind s.store c l v }

/-- Writes the value of all parts of a region without one of their own. -/
def bindDefault (s : State) (p : StorePolicy) (r : RegionId) (v : Value) : State :=
  { s with store := p.bindDefault s.store r v }

/-- Forgets what a region and its parts hold. -/
def kill (s : State) (c : Catalog) (r : RegionId) : State := { s with store := s.store.kill c r }

/-- Forgets some objects, and tells which symbols they held. -/
def invalidate (s : State) (p : StorePolicy) (request : Invalidation) :
    Naming (State × List SymbolId) := do
  let (store, symbols) ← p.invalidate s.store request
  return ({ s with store := store }, symbols)

/-! ### What is known of symbols -/

/-- Assumes that a value is true or false, unless that is impossible. -/
def assume (s : State) (c : Catalog) (v : Value) (truth : Bool) : Option State :=
  (s.constraints.assume c v truth).map fun m => { s with constraints := m }

/-- The number that a value must be. -/
def known? (s : State) (c : Catalog) (v : Value) : Option Int :=
  match v.symbol? with
  | some sym => s.constraints.known? c sym
  | none => v.int?

/-- Is the value zero? It may be either, and a state that allows neither says nothing. -/
def zero? (s : State) (c : Catalog) (v : Value) : Option Bool :=
  match s.assume c v true, s.assume c v false with
  | some _, none => some false
  | none, some _ => some true
  | _, _ => none

/-! ### Allocated memory -/

/-- Records what became of the memory of a symbol. -/
def setAllocation (s : State) (sym : SymbolId) (a : Allocation) : State :=
  { s with heap := s.heap.insert sym a }

/-- Forgets the memory of a symbol. -/
def dropAllocation (s : State) (sym : SymbolId) : State := { s with heap := s.heap.erase sym }

/-! ### Texts -/

/-- The word for the kind of a binding. -/
def kindText : BindingKind → String
  | .direct => "Direct"
  | .default => "Default"

/-- The memory and the constraints of a state, a line for each binding and symbol. -/
def text (s : State) (c : Catalog) : String :=
  let binding (e : BindingKey × Value) : String :=
    "  " ++ c.dumpRegion e.1.region ++ " (" ++ kindText e.1.kind ++ "): " ++ e.2.dump c ++ "\n"
  let constraint (e : SymbolId × RangeSet) : String :=
    "  " ++ c.dumpSymbol e.1 ++ " : " ++ e.2.text ++ "\n"
  "Store:\n" ++ String.join (s.store.bindings.entries.map binding) ++
    "Constraints:\n" ++ String.join (s.constraints.entries.map constraint)

end State

end PathScout
