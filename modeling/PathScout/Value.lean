import PathScout.Catalog
import PathScout.OrderedMap

/-!
# Values

* `Loc`: where a pointer points to.
* `Value`: what an expression has or a region holds. A copy of a structure is a snapshot: the
  bindings of memory when it was made, and the region that was copied.
* `Value.dump`: the text that identifies a value.
-/

namespace PathScout

/-- Does a binding give the value of a region itself, or of its parts without one of their own? -/
inductive BindingKind where
  | direct | default
deriving DecidableEq, Hashable

/-- What a binding of memory is for. -/
structure BindingKey where
  region : RegionId
  kind : BindingKind
deriving DecidableEq, Hashable

namespace BindingKey

/-- The direct binding of a region. -/
def direct (r : RegionId) : BindingKey := ⟨r, .direct⟩

/-- The default binding of a region. -/
def default (r : RegionId) : BindingKey := ⟨r, .default⟩

/-- The place of a binding in order: by region, the direct one first. -/
def rank (k : BindingKey) : Nat :=
  2 * k.region.index + match k.kind with
    | .direct => 0
    | .default => 1

instance : Ord BindingKey := ⟨fun a b => compare a.rank b.rank⟩

end BindingKey

/-- Where a pointer points to: a region, or a fixed address. -/
inductive Loc where
  | region (r : RegionId)
  | address (n : Int)
deriving DecidableEq, Hashable

/-- A value on a path. -/
inductive Value where
  | undefined
  | unknown
  | loc (l : Loc)
  | int (n : Int)
  | symbol (s : SymbolId)
  | locAsInt (l : Loc)
  | snapshot (bindings : List (BindingKey × Value)) (region : RegionId)
deriving Inhabited

namespace Value

mutual

/-- Are two values equal? Values that are stored in the same place are not compared further. -/
def decEq : (a b : Value) → Decidable (a = b)
  | undefined, b => by
    cases b with
    | undefined => exact isTrue rfl
    | _ => exact isFalse (by simp)
  | unknown, b => by
    cases b with
    | unknown => exact isTrue rfl
    | _ => exact isFalse (by simp)
  | loc l, b => by
    cases b with
    | loc l' => exact decidable_of_iff (l = l') (by simp)
    | _ => exact isFalse (by simp)
  | int n, b => by
    cases b with
    | int n' => exact decidable_of_iff (n = n') (by simp)
    | _ => exact isFalse (by simp)
  | symbol s, b => by
    cases b with
    | symbol s' => exact decidable_of_iff (s = s') (by simp)
    | _ => exact isFalse (by simp)
  | locAsInt l, b => by
    cases b with
    | locAsInt l' => exact decidable_of_iff (l = l') (by simp)
    | _ => exact isFalse (by simp)
  | snapshot s r, b => by
    cases b with
    | snapshot s' r' =>
      exact
        if h : r = r' then
          match withPtrEqDecEq s s' fun _ => decEqBindings s s' with
          | isTrue e => isTrue (by simp [e, h])
          | isFalse e => isFalse (by simp [e])
        else isFalse (by simp [h])
    | _ => exact isFalse (by simp)

/-- Are two lists of bindings equal? -/
def decEqBindings : (s t : List (BindingKey × Value)) → Decidable (s = t)
  | [], [] => isTrue rfl
  | [], _ :: _ | _ :: _, [] => isFalse (by simp)
  | (k, v) :: s, (k', v') :: s' =>
    if h : k = k' then
      match withPtrEqDecEq v v' fun _ => decEq v v' with
      | isFalse e => isFalse (by simp [e])
      | isTrue e =>
        match withPtrEqDecEq s s' fun _ => decEqBindings s s' with
        | isTrue e' => isTrue (by simp [e, e', h])
        | isFalse e' => isFalse (by simp [e'])
    else isFalse (by simp [h])

end

instance : DecidableEq Value := fun a b => withPtrEqDecEq a b fun _ => decEq a b

/-- A hash that looks only at the size of a snapshot. -/
def shallowHash : Value → UInt64
  | undefined => 3
  | unknown => 5
  | loc l => mixHash 7 (hash l)
  | int n => mixHash 11 (hash n)
  | symbol s => mixHash 13 (hash s)
  | locAsInt l => mixHash 17 (hash l)
  | snapshot s r => mixHash 19 (mixHash (hash r) (hash s.length))

/-- A hash that looks into a snapshot, but not into the snapshots in it. -/
def deepHash : Value → UInt64
  | snapshot s r =>
    s.foldl (fun h e => mixHash h (mixHash (hash e.1) (shallowHash e.2))) (mixHash 23 (hash r))
  | v => shallowHash v

instance : Hashable Value := ⟨deepHash⟩

/-- The null pointer. -/
def null : Value := loc (.address 0)

/-- A pointer to a region. -/
def pointer (r : RegionId) : Value := loc (.region r)

def isUndefined : Value → Bool
  | undefined => true
  | _ => false

def isUnknown : Value → Bool
  | unknown => true
  | _ => false

def isSnapshot : Value → Bool
  | snapshot .. => true
  | _ => false

/-- Where the value points to, if it is a pointer. -/
def loc? : Value → Option Loc
  | loc l => some l
  | _ => none

/-- The region that the value points to. -/
def region? : Value → Option RegionId
  | loc (.region r) => some r
  | _ => none

/-- The symbol that the value is. -/
def symbol? : Value → Option SymbolId
  | symbol s => some s
  | _ => none

/-- The number that the value is, as an integer or a fixed address. -/
def int? : Value → Option Int
  | int n | loc (.address n) => some n
  | _ => none

/-- The text of a place. -/
def dumpLoc (c : Catalog) : Loc → String
  | .region r => "&" ++ c.dumpRegion r
  | .address n => toString n ++ " (Loc)"

/-- The text that identifies a value. -/
def dump (c : Catalog) : Value → String
  | undefined => "Undefined"
  | unknown => "Unknown"
  | loc l => dumpLoc c l
  | int n => toString n
  | symbol s => c.dumpSymbol s
  | locAsInt l => dumpLoc c l ++ " [as integer]"
  | snapshot _ r => "lazyCompoundVal" ++ Catalog.braced (c.dumpRegion r)

end Value

end PathScout
