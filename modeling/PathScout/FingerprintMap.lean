import PathScout.OrderedMap

/-!
# Maps that keep a fingerprint

States are hashed and compared whenever they are looked up. A map that is a part of a state can keep
its fingerprint, the exclusive or of the hashes of its entries, and bring it up to date when an entry
comes or goes. Two such maps are compared by their sizes and their fingerprints first, and by their
entries only if these agree, and nothing but the size and the fingerprint is hashed.

* `Feed`: the words that something feeds to a hasher. A digest is any function of such words.
* `FingerprintMap`, with `insert`, `remove`, `retain`: the maps and how they are changed.
* `MapOp`, `FingerprintMap.build`, `OrderedMap.build`: what is left after a sequence of changes.
-/

namespace PathScout

/-- What is fed to a hasher. -/
class Feed (α : Type) where
  words : α → List UInt64

/-- A digest of some words. -/
def Feed.digest (words : List UInt64) : UInt64 := words.foldl mixHash 7

instance : Feed Nat := ⟨fun n => [.ofNat n]⟩

/-- Equal things feed the same words. -/
class LawfulFeed (α : Type) [BEq α] [Feed α] : Prop where
  words_eq {a b : α} : (a == b) = true → Feed.words a = Feed.words b

/-- A map that keeps the exclusive or of the hashes of its entries. -/
structure FingerprintMap (κ ν : Type) where
  map : OrderedMap κ ν := {}
  fingerprint : UInt64 := 0

/-- A change of a map. -/
inductive MapOp (κ ν : Type) where
  | insert (key : κ) (value : ν)
  | remove (key : κ)
  | retain (keep : κ → ν → Bool)

namespace OrderedMap

variable {κ ν : Type} [Ord κ]

/-- A change of a map that keeps no fingerprint. -/
def apply (m : OrderedMap κ ν) : MapOp κ ν → OrderedMap κ ν
  | .insert k v => m.insert k v
  | .remove k => m.erase k
  | .retain keep => m.filter keep

/-- What is left of the empty map after some changes. -/
def build (ops : List (MapOp κ ν)) : OrderedMap κ ν := ops.foldl apply {}

end OrderedMap

namespace FingerprintMap

variable {κ ν : Type} [Ord κ]

/-- The value of a key. -/
def get? (m : FingerprintMap κ ν) (k : κ) : Option ν := m.map.get? k

/-- Sizes and fingerprints are compared before entries. -/
def beq [BEq κ] [BEq ν] (m n : FingerprintMap κ ν) : Bool :=
  m.map.size == n.map.size && m.fingerprint == n.fingerprint &&
    (m.map.entries.zip n.map.entries).all fun p => p.1 == p.2

instance [BEq κ] [BEq ν] : BEq (FingerprintMap κ ν) := ⟨beq⟩

instance : Feed (FingerprintMap κ ν) := ⟨fun m => [.ofNat m.map.size, m.fingerprint]⟩

section

variable [BEq ν] [Feed κ] [Feed ν] (digest : List UInt64 → UInt64)

/-- The hash of an entry: a key and its value are fed to a hasher. -/
def entryHash (k : κ) (v : ν) : UInt64 := digest (Feed.words k ++ Feed.words v)

/-- Gives a key a value. Nothing changes if the key has this value already. -/
def insert (m : FingerprintMap κ ν) (k : κ) (v : ν) : FingerprintMap κ ν :=
  match m.get? k with
  | some old =>
    if old == v then m
    else ⟨m.map.insert k v, m.fingerprint ^^^ entryHash digest k old ^^^ entryHash digest k v⟩
  | none => ⟨m.map.insert k v, m.fingerprint ^^^ entryHash digest k v⟩

/-- Takes a key away. -/
def remove (m : FingerprintMap κ ν) (k : κ) : FingerprintMap κ ν :=
  match m.get? k with
  | some old => ⟨m.map.erase k, m.fingerprint ^^^ entryHash digest k old⟩
  | none => m

/-- Takes away, one after the other, the keys of the entries that fail a test. -/
def retain (m : FingerprintMap κ ν) (keep : κ → ν → Bool) : FingerprintMap κ ν :=
  m.map.entries.foldl (fun n e => if keep e.1 e.2 then n else n.remove digest e.1) m

/-- A change of a map that keeps its fingerprint. -/
def apply (m : FingerprintMap κ ν) : MapOp κ ν → FingerprintMap κ ν
  | .insert k v => m.insert digest k v
  | .remove k => m.remove digest k
  | .retain keep => m.retain digest keep

/-- What is left of the empty map after some changes. -/
def build (ops : List (MapOp κ ν)) : FingerprintMap κ ν := ops.foldl (apply digest) {}

end

/-- A map without its fingerprint, and something of its values. -/
def contents {μ : Type} (m : FingerprintMap κ ν) (f : ν → μ) : OrderedMap κ μ :=
  ⟨m.map.entries.map fun e => (e.1, f e.2)⟩

end FingerprintMap

end PathScout
