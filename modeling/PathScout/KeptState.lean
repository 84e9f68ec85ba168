import PathScout.FingerprintMap
import PathScout.State

/-!
# States that keep fingerprints

States all of whose maps keep fingerprints, also the memory in a snapshot. Two states are compared by
the fingerprints before anything else. What is left of a state without its fingerprints is a `State`.

* `KeptValue`, `KeptStore`, `KeptState`: values, memory and states that keep fingerprints.
* `KeptValue.beq`, `KeptState.beq`: how they are compared.
* `KeptValue.content`, `KeptState.content`: what is left of them without fingerprints.
* `KeptValue.Built`, `KeptState.Built`: all maps were made by changes of the empty one.
-/

namespace PathScout

/-! ### What is fed to a hasher -/

instance : Feed RegionId := ⟨fun r => [.ofNat r.index]⟩
instance : Feed SymbolId := ⟨fun x => [.ofNat x.index]⟩
instance : Feed FrameId := ⟨fun f => [.ofNat f.index]⟩
instance : Feed ExprId := ⟨fun e => [.ofNat e.index]⟩

instance : Feed BindingKey where
  words k := Feed.words k.region ++ match k.kind with
    | .direct => [0]
    | .default => [1]

instance : Feed EnvKey where
  words
    | .expr f e => 0 :: Feed.words f ++ Feed.words e
    | .result f => 1 :: Feed.words f

instance : Feed Loc where
  words
    | .region r => 0 :: Feed.words r
    | .address n => [1, .ofInt n]

instance : Feed RangeSet where
  words s := .ofNat s.ranges.length :: s.ranges.flatMap fun i => [.ofInt i.lo, .ofInt i.hi]

instance : Feed Allocation where
  words a := (match a.kind with
    | .allocated => 0
    | .released => 1
    | .escaped => 2) :: Feed.words a.origin

/-! ### Values and states -/

/-- A value where the memory in a snapshot keeps its fingerprint. -/
inductive KeptValue where
  | undefined
  | unknown
  | loc (l : Loc)
  | int (n : Int)
  | symbol (s : SymbolId)
  | locAsInt (l : Loc)
  | snapshot (bindings : List (BindingKey × KeptValue)) (fingerprint : UInt64) (region : RegionId)

/-- Memory that keeps its fingerprint. -/
abbrev KeptStore := FingerprintMap BindingKey KeptValue

/-- A copy of what a region holds. -/
def KeptStore.snapshot (s : KeptStore) (r : RegionId) : KeptValue :=
  .snapshot s.map.entries s.fingerprint r

namespace KeptValue

mutual

/-- Are two values equal? The memory in two snapshots is compared like any other. -/
def beq : KeptValue → KeptValue → Bool
  | undefined, undefined | unknown, unknown => true
  | loc l, loc l' => l == l'
  | int n, int n' => n == n'
  | symbol x, symbol x' => x == x'
  | locAsInt l, locAsInt l' => l == l'
  | snapshot s f r, snapshot s' f' r' =>
    (s.length == s'.length && f == f' && beqBindings s s') && r == r'
  | _, _ => false

/-- Are two lists of bindings equal, as far as both of them go? -/
def beqBindings : List (BindingKey × KeptValue) → List (BindingKey × KeptValue) → Bool
  | (k, v) :: s, (k', v') :: s' => (k == k' && beq v v') && beqBindings s s'
  | _, _ => true

end

instance : BEq KeptValue := ⟨beq⟩

instance : Feed KeptValue where
  words
    | undefined => [0]
    | unknown => [1]
    | loc l => 2 :: Feed.words l
    | int n => [3, 0, .ofInt n]
    | symbol x => 3 :: 1 :: Feed.words x
    | locAsInt l => 3 :: 2 :: Feed.words l
    | snapshot s f r => 3 :: 3 :: .ofNat s.length :: f :: Feed.words r

mutual

/-- A value without its fingerprints. -/
def content : KeptValue → Value
  | undefined => .undefined
  | unknown => .unknown
  | loc l => .loc l
  | int n => .int n
  | symbol x => .symbol x
  | locAsInt l => .locAsInt l
  | snapshot s _ r => .snapshot (contentBindings s) r

/-- Bindings without their fingerprints. -/
def contentBindings : List (BindingKey × KeptValue) → List (BindingKey × Value)
  | [] => []
  | (k, v) :: s => (k, content v) :: contentBindings s

end

/-- A value where the memory in every snapshot, at any depth, was made by changes of the empty one. -/
inductive Built (digest : List UInt64 → UInt64) : KeptValue → Prop
  | undefined : Built digest .undefined
  | unknown : Built digest .unknown
  | loc (l : Loc) : Built digest (.loc l)
  | int (n : Int) : Built digest (.int n)
  | symbol (x : SymbolId) : Built digest (.symbol x)
  | locAsInt (l : Loc) : Built digest (.locAsInt l)
  | snapshot {ops : List (MapOp BindingKey KeptValue)} (r : RegionId)
      (values : ∀ k v, .insert k v ∈ ops → Built digest v) :
      Built digest (KeptStore.snapshot (FingerprintMap.build digest ops) r)

end KeptValue

/-- A state all of whose maps keep their fingerprints. -/
structure KeptState where
  env : FingerprintMap EnvKey KeptValue := {}
  store : KeptStore := {}
  constraints : FingerprintMap SymbolId RangeSet := {}
  heap : FingerprintMap SymbolId Allocation := {}

namespace KeptState

/-- States are compared part by part. -/
def beq (a b : KeptState) : Bool :=
  a.env == b.env && a.store == b.store && a.constraints == b.constraints && a.heap == b.heap

instance : BEq KeptState := ⟨beq⟩

instance : Feed KeptState where
  words s := Feed.words s.env ++ Feed.words s.store ++ Feed.words s.constraints ++
    Feed.words s.heap

/-- A state without its fingerprints. -/
def content (s : KeptState) : State where
  env := s.env.contents KeptValue.content
  store := ⟨s.store.contents KeptValue.content⟩
  constraints := s.constraints.map
  heap := s.heap.map

/-- A state all of whose maps, and those in its values, were made by changes of the empty ones. -/
structure Built (digest : List UInt64 → UInt64) (s : KeptState) : Prop where
  env : ∃ ops, s.env = .build digest ops ∧ ∀ k v, .insert k v ∈ ops → v.Built digest
  store : ∃ ops, s.store = .build digest ops ∧ ∀ k v, .insert k v ∈ ops → v.Built digest
  constraints : ∃ ops, s.constraints = .build digest ops
  heap : ∃ ops, s.heap = .build digest ops

end KeptState

end PathScout
