/-!
# Maps in the order of their keys

A map is the list of its entries in increasing order of keys, so that equal maps are equal lists
and reading a map from the front meets the keys in order. Every operation gives a new map.

* `OrderedMap.get?`, `insert`, `erase`, `filter`: the operations.
* `OrderedMap.fingerprint`: the part of the hash of a map that its entries make up together.
-/

namespace PathScout

/-- A finite map, kept as its entries in increasing order of keys. -/
structure OrderedMap (κ ν : Type) where
  entries : List (κ × ν) := []
deriving DecidableEq

namespace OrderedMap

variable {κ ν : Type} [Ord κ]

/-- The map without entries. -/
def empty : OrderedMap κ ν := {}

/-- The value of the first entry with the given key. -/
def lookup (k : κ) : List (κ × ν) → Option ν
  | [] => none
  | (k', v) :: rest => if compare k k' = .eq then some v else lookup k rest

/-- Puts an entry in its place, instead of one with the same key. -/
def put (k : κ) (v : ν) : List (κ × ν) → List (κ × ν)
  | [] => [(k, v)]
  | (k', v') :: rest =>
    match compare k k' with
    | .lt => (k, v) :: (k', v') :: rest
    | .eq => (k, v) :: rest
    | .gt => (k', v') :: put k v rest

/-- The value of a key. -/
def get? (m : OrderedMap κ ν) (k : κ) : Option ν := lookup k m.entries

/-- Does the key have a value? -/
def contains (m : OrderedMap κ ν) (k : κ) : Bool := (m.get? k).isSome

/-- Gives a key a value. -/
def insert (m : OrderedMap κ ν) (k : κ) (v : ν) : OrderedMap κ ν := ⟨put k v m.entries⟩

/-- Takes a key away. -/
def erase (m : OrderedMap κ ν) (k : κ) : OrderedMap κ ν :=
  ⟨m.entries.filter fun e => compare k e.1 != .eq⟩

/-- Keeps the entries that satisfy a test. -/
def filter (m : OrderedMap κ ν) (keep : κ → ν → Bool) : OrderedMap κ ν :=
  ⟨m.entries.filter fun e => keep e.1 e.2⟩

/-- The keys in order. -/
def keys (m : OrderedMap κ ν) : List κ := m.entries.map (·.1)

/-- The number of entries. -/
def size (m : OrderedMap κ ν) : Nat := m.entries.length

/-- Is there no entry? -/
def isEmpty (m : OrderedMap κ ν) : Bool := m.entries.isEmpty

/-- A map as text: its entries in braces, each key before its value. -/
def text (m : OrderedMap κ ν) (key : κ → String) (value : ν → String) : String :=
  "\x7b" ++ ", ".intercalate (m.entries.map fun e => key e.1 ++ ": " ++ value e.2) ++ "\x7d"

/-- The exclusive or of the hashes of some entries. -/
def xorAll (entryHash : κ → ν → UInt64) : List (κ × ν) → UInt64
  | [] => 0
  | (k, v) :: rest => entryHash k v ^^^ xorAll entryHash rest

/-- The exclusive or of the hashes of all entries. An entry that comes or goes changes it by the hash
of that entry, whatever the other entries are. -/
def fingerprint (m : OrderedMap κ ν) (entryHash : κ → ν → UInt64) : UInt64 :=
  xorAll entryHash m.entries

instance [Hashable κ] [Hashable ν] : Hashable (OrderedMap κ ν) where
  hash m := mixHash (hash m.size) (m.fingerprint fun k v => mixHash (hash k) (hash v))

theorem mem_of_lookup {k : κ} {v : ν} {es : List (κ × ν)} (h : lookup k es = some v) :
    ∃ k', (k', v) ∈ es := by
  induction es with
  | nil => simp [lookup] at h
  | cons e rest ih =>
    obtain ⟨k', w⟩ := e
    simp only [lookup] at h
    split at h
    · exact ⟨k', by simp_all⟩
    · obtain ⟨l, hl⟩ := ih h
      exact ⟨l, List.mem_cons_of_mem _ hl⟩

end OrderedMap

end PathScout
