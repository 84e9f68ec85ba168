import PathScout.Store

/-!
# How finely memory is followed

* `StorePolicy.region`: every region has contents of its own.
* `StorePolicy.flat`: only scalar variables have contents, and everything else is unknown.
* `StorePolicy.retrieve`, `bind`, `bindDefault`, `invalidate`: memory under a policy.
-/

namespace PathScout

/-- The two ways of following memory. -/
inductive StorePolicy where
  | region | flat
deriving DecidableEq

namespace Store

/-- Is the region a scalar variable? -/
def isScalarVar (c : Catalog) (r : RegionId) : Bool :=
  match c.region r with
  | .var .. => (c.valueType? r).any (·.isScalar)
  | _ => false

/-- The value of a scalar variable; all else is unknown. -/
def retrieveFlat (s : Store) (l : Loc) (t : CType) : Naming Value := do
  match l with
  | .address _ => return .unknown
  | .region r =>
    if ← Naming.query fun c => isScalarVar c r then
      match s.direct? r with
      | some v => return fit v t
      | none =>
        if ← Naming.query (·.hasLocalStorage r) then return .undefined
        else Naming.regionValue r t
    else return .unknown

/-- Writes a scalar variable; other writes are lost. -/
def bindFlat (s : Store) (c : Catalog) (l : Loc) (v : Value) : Store :=
  match l with
  | .region r => if isScalarVar c r then ⟨s.bindings.insert (.direct r) v⟩ else s
  | .address _ => s

/-- Forgets scalar variables, one after the other. -/
def forgetFlat (before : Store) (request : Invalidation) :
    (objects seen : List RegionId) → Store → List SymbolId → Naming (Store × List SymbolId)
  | [], _, s, symbols => return (s, symbols)
  | r :: rest, seen, s, symbols => do
    if ← Naming.query fun c => seen.contains r || !isScalarVar c r then
      forgetFlat before request rest (r :: seen) s symbols
    else
      let shown ← Naming.query fun c => ((before.direct? r).bind (shownSymbol? c)).toList
      let (key, value) ← conjureContents r request
      forgetFlat before request rest (r :: seen) ⟨s.bindings.insert key value⟩ (symbols ++ shown)

/-- Forgets the scalar variables among some objects. -/
def invalidateFlat (s : Store) (request : Invalidation) : Naming (Store × List SymbolId) := do
  forgetFlat s request (← invalidationRoots request) [] s []

end Store

namespace StorePolicy

/-- The name of a policy. -/
def name : StorePolicy → String
  | region => "region"
  | flat => "flat"

/-- The value of type `t` at a place. -/
def retrieve (p : StorePolicy) (s : Store) (l : Loc) (t : CType) : Naming Value :=
  match p with
  | region => s.retrieve l t
  | flat => s.retrieveFlat l t

/-- Writes a value. -/
def bind (p : StorePolicy) (s : Store) (c : Catalog) (l : Loc) (v : Value) : Store :=
  match p with
  | region => s.bind c l v
  | flat => s.bindFlat c l v

/-- Writes the value of all parts without one of their own. -/
def bindDefault (p : StorePolicy) (s : Store) (r : RegionId) (v : Value) : Store :=
  match p with
  | region => s.bindDefault r v
  | flat => s

/-- Forgets some objects, and tells which symbols they held. -/
def invalidate (p : StorePolicy) (s : Store) (request : Invalidation) :
    Naming (Store × List SymbolId) :=
  match p with
  | region => s.invalidate request
  | flat => s.invalidateFlat request

end StorePolicy

end PathScout
