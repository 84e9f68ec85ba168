import PathScout.Value.Fold

/-!
# Contents of memory

A store binds regions to values. A direct binding gives the value of exactly its region; a default
binding gives the value of every part of its region that has no binding of its own.

Reading takes the most specific binding: the direct one of the region, else the nearest default
of what encloses it, else what the memory space says: locals are undefined, and other memory holds
a symbol for what it held at first. Reading a structure gives a snapshot of memory instead of a
copy of its fields.

* `Store.retrieve`, `Store.bind`, `Store.bindDefault`, `Store.kill`: reading and writing.
* `Store.invalidate`: forgetting what is reachable from some regions.
-/

namespace PathScout

/-- The contents of memory. -/
structure Store where
  bindings : OrderedMap BindingKey Value := {}
deriving DecidableEq, Hashable

/-- What to forget: the objects of some regions, and the global variables if asked for. The values
that take their place are told apart by the expression, the frame and the count. -/
structure Invalidation where
  regions : List RegionId
  expr : ExprId
  frame : FrameId
  count : Nat
  includeGlobals : Bool

namespace Catalog

/-- A region and the regions that enclose it, up to its object. -/
def layers (c : Catalog) (r : RegionId) : List RegionId :=
  (c.chain r).take ((c.parts r).length + 1)

/-- The region seen as holding a value of another type: itself, or its first element. -/
def isSeenAs (c : Catalog) (r : RegionId) (t : CType) : Bool :=
  t.isVoid || c.valueType? r == some t || match c.region r with
    | .code .. => true
    | _ => false

end Catalog

/-- The region as holding a value of another type. -/
def Naming.castRegion (r : RegionId) (t : CType) : Naming RegionId := do
  if ← query (·.isSeenAs r t) then return r else region (.element t (.known 0) r)

/-- The same path below another region: `outer` is replaced by `onto`. -/
def Naming.rebase (r outer onto : RegionId) : Naming RegionId := do
  let path ← query fun c => ((c.chain r).takeWhile (· != outer)).map c.region
  path.foldrM (fun part below =>
    match part with
    | .field f _ => region (.field f below)
    | .element t i _ => region (.element t i below)
    | _ => pure below) onto

namespace Store

/-- The value of a region itself. -/
def direct? (s : Store) (r : RegionId) : Option Value := s.bindings.get? (.direct r)

/-- The value of the parts of a region without one of their own. -/
def default? (s : Store) (r : RegionId) : Option Value := s.bindings.get? (.default r)

/-- A number as a pointer or as an integer, as the type asks. -/
def fit (v : Value) (t : CType) : Value :=
  match v with
  | .int n => if t.isPointer then .loc (.address n) else v
  | .loc (.address n) => if t.isInteger then .int n else v
  | v => v

/-- A character of a string literal: its bytes, then zero, then nothing. -/
def literalByte? (c : Catalog) (r : RegionId) : Option Value :=
  match c.region r with
  | .element .char (.known i) p =>
    match c.region p with
    | .string e _ =>
      match (c.program.expr e).op with
      | .string text =>
        let bytes := text.toUTF8
        if 0 ≤ i ∧ i < bytes.size then
          some (.int (Word.signed 8 ((bytes.toList[i.toNat]?.getD 0).toNat : Int)))
        else if i = bytes.size then some (.int 0)
        else some .undefined
      | _ => none
    | _ => none
  | _ => none

/-- What memory holds that was never written. -/
def initialValue (r : RegionId) (t : CType) : Naming Value := do
  match ← Naming.query fun c => literalByte? c r with
  | some v => return v
  | none =>
    match ← Naming.query (·.space r) with
    | .locals _ => return .undefined
    | .code => return .unknown
    | _ => Naming.regionValue r t

/-- The nearest default binding of a region or of what encloses it. -/
def nearestDefault? (c : Catalog) (bindings : List (BindingKey × Value)) (r : RegionId) :
    Option (RegionId × Value) :=
  (c.layers r).findSome? fun q => (OrderedMap.lookup (.default q) bindings).map (q, ·)

theorem mem_of_nearestDefault? {c : Catalog} {bindings : List (BindingKey × Value)} {r q : RegionId}
    {v : Value} (h : nearestDefault? c bindings r = some (q, v)) : ∃ k, (k, v) ∈ bindings := by
  obtain ⟨a, -, ha⟩ := List.exists_of_findSome?_eq_some h
  obtain ⟨w, hw, e⟩ := Option.map_eq_some_iff.1 ha
  obtain ⟨-, rfl⟩ := Prod.mk.inj e
  exact OrderedMap.mem_of_lookup hw

theorem sizeOf_snapshot_lt {bindings inner : List (BindingKey × Value)} {k : BindingKey}
    {r : RegionId} (h : (k, .snapshot inner r) ∈ bindings) : sizeOf inner < sizeOf bindings := by
  have := List.sizeOf_lt_of_mem h
  simp at this
  omega

/-- The value of a region in some bindings. A snapshot is read at the same path below the region
that it was made of. -/
def retrieveFrom (bindings : List (BindingKey × Value)) (r : RegionId) (t : CType) (c : Catalog) :
    Value × Catalog :=
  let direct := OrderedMap.lookup (.direct r) bindings
  if t.isStruct then
    match direct, OrderedMap.lookup (.default r) bindings with
    | some v, _ => (v, c)
    | none, some (.snapshot inner source) => (.snapshot inner source, c)
    | none, _ => (.snapshot bindings r, c)
  else if t.isArray then (.pointer r, c)
  else
    match direct with
    | some v => (fit v t, c)
    | none =>
      match _h : nearestDefault? c bindings r with
      | none => initialValue r t c
      | some (q, .symbol s) =>
        if q = r ∧ (c.symbol s).type = t then Naming.symbolValue s c
        else Naming.derivedValue s r t c
      | some (q, .snapshot inner source) =>
        let (path, c) := Naming.rebase r q source c
        retrieveFrom inner path t c
      | some (_, v) => (fit v t, c)
termination_by sizeOf bindings
decreasing_by
  obtain ⟨k, hk⟩ := mem_of_nearestDefault? _h
  exact sizeOf_snapshot_lt hk

/-- The value of type `t` at a place. Fixed addresses are not followed. -/
def retrieve (s : Store) (l : Loc) (t : CType) : Naming Value :=
  match l with
  | .region r => retrieveFrom s.bindings.entries r t
  | .address _ => return .unknown

/-- Forgets the bindings of a region and its parts. -/
def kill (s : Store) (c : Catalog) (r : RegionId) : Store :=
  ⟨s.bindings.filter fun k _ => k.region != r && !c.isInside k.region r⟩

/-- Does the value set a whole object of the given type, and not the place of a scalar? -/
def setsWhole (v : Value) (t : Option CType) : Bool :=
  match v with
  | .snapshot .. => true
  | .unknown | .undefined | .symbol _ => t.any (·.isAggregate)
  | _ => false

/-- Writes a value. A value of a whole object replaces what its parts held. -/
def bind (s : Store) (c : Catalog) (l : Loc) (v : Value) : Store :=
  match l with
  | .address _ => s
  | .region r =>
    if setsWhole v (c.valueType? r) then ⟨(s.kill c r).bindings.insert (.default r) v⟩
    else ⟨s.bindings.insert (.direct r) v⟩

/-- Writes the value of all parts without one of their own. -/
def bindDefault (s : Store) (r : RegionId) (v : Value) : Store :=
  ⟨s.bindings.insert (.default r) v⟩

/-! ### Forgetting -/

/-- The objects to start from: those of the given regions, and of the global variables. -/
def invalidationRoots (request : Invalidation) : Naming (List RegionId) := do
  let given ← Naming.query fun c => request.regions.map c.base
  if request.includeGlobals then
    let vars ← Naming.query fun c => c.program.globalVars
    return given ++ (← vars.mapM fun v => Naming.var v request.frame)
  else return given

/-- A fresh value for an object: of the object itself if it is a scalar, else of all its parts. -/
def conjureContents (r : RegionId) (request : Invalidation) : Naming (BindingKey × Value) := do
  let type ← Naming.query (·.valueType? r)
  let s ← Naming.symbol
    (.conjured request.expr request.frame (type.getD .int) request.count (some r))
  if type.any (·.isScalar) then return (.direct r, ← Naming.symbolValue s)
  else return (.default r, .symbol s)

/-- The bindings of an object and of its parts. -/
def ofObject (s : Store) (c : Catalog) (object : RegionId) : List Value :=
  s.bindings.entries.filterMap fun e => if c.base e.1.region = object then some e.2 else none

/-- The symbols that a value shows, directly or as the pointer that it is. -/
def shownSymbol? (c : Catalog) : Value → Option SymbolId
  | .loc (.region r) => c.symbolicBase? r
  | .symbol s => some s
  | _ => none

/-- Can the object never change? -/
def isImmutable (c : Catalog) (r : RegionId) : Bool :=
  match c.space r with
  | .globals .immutable | .code => true
  | _ => false

/-- Forgets the objects on a stack and what they point to. Every object is forgotten once, so
there are at most as many steps as roots and bindings. -/
def forget (before : Store) (request : Invalidation) :
    (steps : Nat) → (stack seen : List RegionId) → Store → List SymbolId → Naming (Store × List SymbolId)
  | 0, _, _, s, symbols => return (s, symbols)
  | _, [], _, s, symbols => return (s, symbols)
  | steps + 1, object :: stack, seen, s, symbols => do
    if ← Naming.query fun c => seen.contains object || isImmutable c object then
      forget before request steps stack (object :: seen) s symbols
    else
      let (shown, targets) ← Naming.query fun c =>
        let held := before.ofObject c object
        (held.filterMap (shownSymbol? c), held.filterMap fun v => v.region?.map c.base)
      let s ← Naming.query fun c => s.kill c object
      let (key, value) ← conjureContents object request
      forget before request steps (targets.reverse ++ stack) (object :: seen)
        ⟨s.bindings.insert key value⟩ (symbols ++ shown)

/-- Forgets some objects and everything that they point to, and tells which symbols they held. -/
def invalidate (s : Store) (request : Invalidation) : Naming (Store × List SymbolId) := do
  let roots ← invalidationRoots request
  forget s request (roots.length + s.bindings.size) roots.reverse [] s []

end Store

end PathScout
