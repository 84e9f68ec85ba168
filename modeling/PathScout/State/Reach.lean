import PathScout.State

/-!
# What a path can still reach

Objects and symbols are live if something marked leads to them: a live object holds live values, a
pointer makes its object live, and a symbol makes the symbols in it live. Global memory and code
are always live, and what a live object held at first is live with it.

* `Marks`: the objects and symbols found to be live.
* `Marks.markRegion`, `Marks.markSymbol`, `Marks.markValue`: marking by hand.
* `Marks.markReachable`: follows what live objects hold until nothing new is found.
* `Marks.isLiveRegion`, `Marks.isLiveSymbol`: the answers.
* `State.removeDead`: a state without what is not live.
-/

namespace PathScout

/-- Objects and symbols that are live. -/
structure Marks where
  regions : List RegionId := []
  symbols : List SymbolId := []

namespace Marks

/-- Marks a symbol and the symbols that it is made of. -/
def markSymbol (m : Marks) (c : Catalog) (s : SymbolId) : Marks :=
  { m with symbols := ((c.dependencies s).filter (!m.symbols.contains ·)) ++ m.symbols }

/-- Marks the object of a region, and the symbol whose memory it is. -/
def markRegion (m : Marks) (c : Catalog) (r : RegionId) : Marks :=
  let base := c.base r
  if m.regions.contains base then m
  else
    let m := { m with regions := base :: m.regions }
    match c.symbolicBase? base with
    | some s => m.markSymbol c s
    | none => m

mutual

/-- Marks what a value leads to. A copy of a structure leads to what the copied object held. -/
def markValue (c : Catalog) (m : Marks) : Value → Marks
  | .loc (.region r) | .locAsInt (.region r) => m.markRegion c r
  | .symbol s => m.markSymbol c s
  | .snapshot bindings r => markBindings c (c.base r) (m.markRegion c r) bindings
  | .loc (.address _) | .locAsInt (.address _) | .undefined | .unknown | .int _ => m

/-- Marks what the bindings of an object lead to. -/
def markBindings (c : Catalog) (object : RegionId) (m : Marks) :
    List (BindingKey × Value) → Marks
  | [] => m
  | (k, v) :: rest =>
    markBindings c object (if c.base k.region = object then markValue c m v else m) rest

end

/-- Does a memory space live as long as the program? -/
def isPermanent : Space → Bool
  | .globals _ | .code => true
  | _ => false

/-- Is the region live, when `symbol` tells which symbols are? -/
def isLiveRegionBy (m : Marks) (c : Catalog) (symbol : SymbolId → Bool) (r : RegionId) : Bool :=
  m.regions.contains (c.base r) || isPermanent (c.space r) || (c.symbolicBase? r).any symbol

/-- Is the symbol live? It leads only to older symbols. -/
def isLiveSymbol (m : Marks) (c : Catalog) (s : SymbolId) : Bool :=
  let older (t : SymbolId) : Bool := if t.index < s.index then isLiveSymbol m c t else false
  m.symbols.contains s ||
    match c.symbol s with
    | .regionValue r _ => m.isLiveRegionBy c older r
    | .derived p r _ => older p || m.isLiveRegionBy c older r
    | .conjured .. => false
    | .symInt l _ _ _ => older l
    | .intSym _ _ r _ => older r
    | .symSym l _ r _ => older l && older r
termination_by s.index

/-- Is the region live? -/
def isLiveRegion (m : Marks) (c : Catalog) (r : RegionId) : Bool :=
  m.isLiveRegionBy c (m.isLiveSymbol c) r

/-- The bindings of live objects. -/
def liveBindings (m : Marks) (c : Catalog) (bindings : List (BindingKey × Value)) :
    List (BindingKey × Value) :=
  bindings.filter fun e => m.isLiveRegion c e.1.region

/-- The bindings of the other objects. -/
def otherBindings (m : Marks) (c : Catalog) (bindings : List (BindingKey × Value)) :
    List (BindingKey × Value) :=
  bindings.filter fun e => !m.isLiveRegion c e.1.region

/-- Follows the bindings of live objects among those that were not followed yet. -/
def follow (c : Catalog) (m : Marks) (pending : List (BindingKey × Value)) : Marks :=
  if (m.otherBindings c pending).length < pending.length then
    follow c ((m.liveBindings c pending).foldl (fun m e => markValue c m e.2) m)
      (m.otherBindings c pending)
  else m
termination_by pending.length

/-- Marks all that the values of the environment and the live objects lead to. -/
def markReachable (m : Marks) (c : Catalog) (store : Store) (env : Environment) : Marks :=
  follow c (env.entries.foldl (fun m e => markValue c m e.2) m) store.bindings.entries

end Marks

/-- The bindings of live regions. -/
def Store.removeDead (s : Store) (c : Catalog) (m : Marks) : Store :=
  ⟨s.bindings.filter fun k _ => m.isLiveRegion c k.region⟩

/-- The state without the bindings of dead regions and the ranges of dead symbols. -/
def State.removeDead (s : State) (c : Catalog) (m : Marks) : State :=
  { s with
    store := s.store.removeDead c m
    constraints := s.constraints.filter fun sym _ => m.isLiveSymbol c sym }

end PathScout
