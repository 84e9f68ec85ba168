import PathScout.Frame
import PathScout.Program
import PathScout.Text.Quoted
import PathScout.Word

/-!
# Regions of memory and symbols

A region is an object in memory or a part of one; a symbol is a value that is not known. Both are
numbered as they are met, and refer to older ones by number.

* `Region`, `Symbol`: what regions and symbols are.
* `Catalog`: the regions and symbols of a program met so far. `Naming`: actions that may add some.
* `Catalog.chain`: a region and what encloses it, up to its memory space.
* `Catalog.base`, `Catalog.space`, `Catalog.isInside`, `Catalog.offset?`: read off the chain.
* `Catalog.dumpRegion`, `Catalog.dumpSymbol`: texts that identify them.
-/

namespace PathScout

/-- The number of a region. -/
structure RegionId where
  index : Nat
deriving DecidableEq, Hashable, Inhabited

/-- The number of a symbol. -/
structure SymbolId where
  index : Nat
deriving DecidableEq, Hashable, Inhabited

instance : Ord SymbolId := ⟨fun a b => compare a.index b.index⟩

/-- How a symbol is written. -/
def SymbolId.text (s : SymbolId) : String := s!"${s.index}"

/-- The kinds of global memory. -/
inductive GlobalsKind where
  | staticGlobals | globals | immutable
deriving DecidableEq, Hashable

/-- The parts of memory that objects lie in. -/
inductive Space where
  | locals (frame : FrameId)
  | arguments (frame : FrameId)
  | heap
  | unknown
  | globals (kind : GlobalsKind)
  | code
deriving DecidableEq, Hashable

/-- The position of an element. -/
inductive RegionIndex where
  | known (n : Int)
  | symbolic (symbol : SymbolId)
deriving DecidableEq, Hashable

/-- How the position of an element is written. -/
def RegionIndex.text : RegionIndex → String
  | known n => toString n
  | symbolic s => s.text

/-- A memory space, an object in one, or a part of an object. -/
inductive Region where
  | space (space : Space)
  | symbolic (symbol : SymbolId) (parent : RegionId)
  | alloca (expr : ExprId) (count : Nat) (parent : RegionId)
  | code (function : FunctionId) (parent : RegionId)
  | string (expr : ExprId) (parent : RegionId)
  | temporary (expr : ExprId) (parent : RegionId)
  | var (var : VarId) (parent : RegionId)
  | field (field : FieldId) (parent : RegionId)
  | element (type : CType) (index : RegionIndex) (parent : RegionId)
deriving DecidableEq, Hashable

namespace Region

/-- The region that encloses this one directly. -/
def parent? : Region → Option RegionId
  | space _ => none
  | symbolic _ p | alloca _ _ p | code _ p | string _ p | temporary _ p | var _ p | field _ p
  | element _ _ p => some p

/-- Is the region a part of an object? -/
def isPart : Region → Bool
  | field .. | element .. => true
  | _ => false

/-- Is the region the first element of what encloses it, as casts of pointers make it? -/
def isFirstElement : Region → Bool
  | element _ (.known 0) _ => true
  | _ => false

end Region

/-- A value that is not known: what a region held at first, the result of something unknown, the
part of a whole that is unknown, or an operation on symbols. -/
inductive Symbol where
  | regionValue (region : RegionId) (type : CType)
  | conjured (expr : ExprId) (frame : FrameId) (type : CType) (count : Nat) (tag : Option RegionId)
  | derived (parent : SymbolId) (region : RegionId) (type : CType)
  | symInt (left : SymbolId) (op : BinaryOp) (right : Int) (type : CType)
  | intSym (left : Int) (op : BinaryOp) (right : SymbolId) (type : CType)
  | symSym (left : SymbolId) (op : BinaryOp) (right : SymbolId) (type : CType)
deriving DecidableEq, Hashable

namespace Symbol

/-- The type of the values that a symbol stands for. -/
def type : Symbol → CType
  | regionValue _ t | conjured _ _ t _ _ | derived _ _ t | symInt _ _ _ t | intSym _ _ _ t
  | symSym _ _ _ t => t

/-- Is the symbol not made by an operation? -/
def isAtomic : Symbol → Bool
  | regionValue .. | conjured .. | derived .. => true
  | _ => false

/-- The symbols that a symbol is made of. -/
def operands : Symbol → List SymbolId
  | regionValue .. | conjured .. => []
  | derived p _ _ => [p]
  | symInt l _ _ _ => [l]
  | intSym _ _ r _ => [r]
  | symSym l _ r _ => [l, r]

end Symbol

/-- The regions and symbols met so far, and the program they belong to. -/
structure Catalog where
  program : Program
  regions : Interned Region
  symbols : Interned Symbol

/-- Actions that may give numbers to regions and symbols. -/
abbrev Naming := StateM Catalog

namespace Catalog

/-- The catalog of a program at the start. -/
def ofProgram (p : Program) : Catalog := ⟨p, ∅, ∅⟩

/-- The region with the given number. -/
def region (c : Catalog) (r : RegionId) : Region := (c.regions.get? r.index).getD (.space .unknown)

/-- The symbol with the given number. -/
def symbol (c : Catalog) (s : SymbolId) : Symbol :=
  (c.symbols.get? s.index).getD (.regionValue ⟨0⟩ .int)

/-! ### Enclosing regions -/

/-- The region that encloses another one directly. It is always older. -/
def enclosing? (c : Catalog) (r : RegionId) : Option RegionId :=
  (c.region r).parent?.filter fun p => p.index < r.index

theorem enclosing?_lt {c : Catalog} {r p : RegionId} (h : c.enclosing? r = some p) :
    p.index < r.index := by
  simpa using (Option.filter_eq_some_iff.1 h).2

/-- A region and the regions that enclose it, up to its memory space. -/
def chain (c : Catalog) (r : RegionId) : List RegionId :=
  match _h : c.enclosing? r with
  | some p => r :: chain c p
  | none => [r]
termination_by r.index
decreasing_by exact enclosing?_lt _h

/-- The memory space of a region, as a region. -/
def spaceRegion (c : Catalog) (r : RegionId) : RegionId := (c.chain r).getLastD r

/-- The memory space of a region. -/
def space (c : Catalog) (r : RegionId) : Space :=
  match c.region (c.spaceRegion r) with
  | .space s => s
  | _ => .unknown

/-- The object that a region is, or is a part of. -/
def base (c : Catalog) (r : RegionId) : RegionId :=
  ((c.chain r).dropWhile fun q => (c.region q).isPart).headD r

/-- The region without the casts of pointers to it. -/
def stripCasts (c : Catalog) (r : RegionId) : RegionId :=
  ((c.chain r).dropWhile fun q => (c.region q).isFirstElement).headD r

/-- Is the region a proper part of another one? -/
def isInside (c : Catalog) (r outer : RegionId) : Bool := (c.chain r).tail.contains outer

/-- The parts on the way from a region to its object, innermost first. -/
def parts (c : Catalog) (r : RegionId) : List Region :=
  ((c.chain r).map c.region).takeWhile (·.isPart)

/-- How far one part lies behind the start of what encloses it. -/
def partOffset? (c : Catalog) : Region → Option Int
  | .field f _ => some (Word.wrap (c.program.fieldOffset f))
  | .element t (.known n) _ => Word.ofInt? (n * c.program.sizeWord t)
  | _ => none

/-- The object of a region and how far the region lies behind its start, if that is known. -/
def offset? (c : Catalog) (r : RegionId) : Option (RegionId × Int) := do
  let offsets ← (c.parts r).mapM c.partOffset?
  return (c.base r, offsets.foldl (fun n m => Word.wrap (n + m)) 0)

/-- The frame that a region on the stack belongs to. -/
def stackFrame? (c : Catalog) (r : RegionId) : Option FrameId :=
  match c.space r with
  | .locals f | .arguments f => some f
  | _ => none

def hasStackStorage (c : Catalog) (r : RegionId) : Bool := (c.stackFrame? r).isSome

def hasArgumentStorage (c : Catalog) (r : RegionId) : Bool :=
  match c.space r with
  | .arguments _ => true
  | _ => false

def hasLocalStorage (c : Catalog) (r : RegionId) : Bool :=
  match c.space r with
  | .locals _ => true
  | _ => false

def hasGlobalStorage (c : Catalog) (r : RegionId) : Bool :=
  match c.space r with
  | .globals _ => true
  | _ => false

/-- The symbol whose memory a region is, or is a part of. -/
def symbolicBase? (c : Catalog) (r : RegionId) : Option SymbolId :=
  match c.region (c.base r) with
  | .symbolic s _ => some s
  | _ => none

/-- The type of what a region holds, if the region itself says so. -/
def valueType? (c : Catalog) (r : RegionId) : Option CType :=
  match c.region r with
  | .var v _ => some (c.program.var v).type
  | .field f _ => some (c.program.field f).type
  | .element t _ _ => some t
  | .string e _ | .temporary e _ => some (c.program.expr e).type
  | _ => none

/-! ### Texts -/

/-- A region in the words of the source, if it is a variable or a part of one. -/
def describe? (c : Catalog) (r : RegionId) : Option String :=
  (c.chain r).map c.region |> go
where
  go : List Region → Option String
    | .var v _ :: _ => some (c.program.var v).name
    | .field f _ :: rest => do return (← go rest) ++ "." ++ (c.program.field f).name
    | .element _ (.known n) _ :: rest => do return (← go rest) ++ "[" ++ toString n ++ "]"
    | _ => none

/-- The text of a memory space. -/
def dumpSpace : Space → String
  | .locals _ => "StackLocalsSpaceRegion"
  | .arguments _ => "StackArgumentsSpaceRegion"
  | .heap => "HeapSpaceRegion"
  | .unknown => "UnknownSpaceRegion"
  | .globals .staticGlobals => "StaticGlobalsMemSpace"
  | .globals .globals => "GlobalInternalSpaceRegion"
  | .globals .immutable => "GlobalImmutableSpaceRegion"
  | .code => "CodeSpaceRegion"

/-- A text in braces. -/
def braced (s : String) : String := "\x7b" ++ s ++ "\x7d"

/-- The text that identifies a region. -/
def dumpRegion (c : Catalog) (r : RegionId) : String :=
  (c.chain r).map c.region |> go
where
  go : List Region → String
    | [] => ""
    | .space s :: _ => dumpSpace s
    | .symbolic s _ :: _ => "SymRegion" ++ braced s.text
    | .alloca e n _ :: _ => "alloca" ++ braced (toString e.index ++ "," ++ toString n)
    | .code f _ :: _ => "code" ++ braced (c.program.function f).name
    | .string e _ :: _ =>
      match (c.program.expr e).op with
      | .string s => Text.quoted s
      | _ => "string"
    | .temporary e _ :: _ => "temp_object" ++ braced (toString e.index)
    | .var v _ :: _ => (c.program.var v).name
    | .field f _ :: rest => go rest ++ "->" ++ (c.program.field f).name
    | .element t i _ :: rest => "element" ++ braced (go rest ++ "," ++ i.text ++ " S64b," ++ t.text)

/-- The text of an offset in an object. -/
def dumpOffset (c : Catalog) (o : RegionId × Int) : String :=
  "raw_offset" ++ braced (c.dumpRegion o.1 ++ "," ++ toString o.2 ++ " S64b")

/-- The text that identifies a symbol, when operations are nested at most `depth` deep. -/
def dumpSymbolTo (c : Catalog) : (depth : Nat) → SymbolId → String
  | 0, s => s.text
  | depth + 1, s =>
    match c.symbol s with
    | .regionValue r _ => "reg_" ++ s.text ++ "<" ++ c.dumpRegion r ++ ">"
    | .conjured _ _ t _ _ => "conj_" ++ s.text ++ braced t.text
    | .derived p r _ =>
      "derived_" ++ s.text ++ braced (dumpSymbolTo c depth p ++ "," ++ c.dumpRegion r)
    | .symInt l op k _ =>
      "(" ++ dumpSymbolTo c depth l ++ ") " ++ op.symbol ++ " " ++ toString k
    | .intSym k op r _ =>
      toString k ++ " " ++ op.symbol ++ " (" ++ dumpSymbolTo c depth r ++ ")"
    | .symSym l op r _ =>
      "(" ++ dumpSymbolTo c depth l ++ ") " ++ op.symbol ++ " (" ++ dumpSymbolTo c depth r ++ ")"

/-- The text that identifies a symbol. Its operands are older, which bounds the nesting. -/
def dumpSymbol (c : Catalog) (s : SymbolId) : String := c.dumpSymbolTo (s.index + 1) s

/-- The symbols that the symbols in `queue` are made of, after those in `seen`. -/
def dependenciesFrom (c : Catalog) : (n : Nat) → (seen queue : List SymbolId) → List SymbolId
  | 0, seen, _ => seen
  | _, seen, [] => seen
  | n + 1, seen, s :: queue =>
    let fresh := (c.symbol s).operands.eraseDups.filter (!seen.contains ·)
    dependenciesFrom c n (seen ++ fresh) (queue ++ fresh)

/-- A symbol and the symbols that it is made of, nearer ones first. All are as old or older, so
there are at most as many as symbols up to it. -/
def dependencies (c : Catalog) (s : SymbolId) : List SymbolId :=
  c.dependenciesFrom (s.index + 1) [s] [s]

end Catalog

/-! ### Naming -/

namespace Naming

/-- Gives a region its number. -/
def region (r : Region) : Naming RegionId := fun c =>
  let (i, regions) := c.regions.intern r
  (⟨i⟩, { c with regions := regions })

/-- Gives a symbol its number. -/
def symbol (s : Symbol) : Naming SymbolId := fun c =>
  let (i, symbols) := c.symbols.intern s
  (⟨i⟩, { c with symbols := symbols })

/-- Reads something off the catalog. -/
def query {α : Type} (f : Catalog → α) : Naming α := fun c => (f c, c)

/-- A memory space as a region. -/
def space (s : Space) : Naming RegionId := region (.space s)

/-- The memory space of a variable in a frame. -/
def varSpace (kind : VarKind) (frame : FrameId) : Space :=
  match kind with
  | .local => .locals frame
  | .param _ => .arguments frame
  | .global true | .staticLocal => .globals .staticGlobals
  | .global false => .globals .globals

/-- The region of a variable in a frame. -/
def var (v : VarId) (frame : FrameId) : Naming RegionId := do
  let kind ← query fun c => (c.program.var v).kind
  region (.var v (← space (varSpace kind frame)))

/-- The memory that an unknown pointer points to. -/
def symbolic (s : SymbolId) : Naming RegionId := do region (.symbolic s (← space .unknown))

/-- The memory that an unknown pointer from an allocation points to. -/
def symbolicHeap (s : SymbolId) : Naming RegionId := do region (.symbolic s (← space .heap))

/-- Memory allocated on the stack. -/
def alloca (e : ExprId) (count : Nat) (frame : FrameId) : Naming RegionId := do
  region (.alloca e count (← space (.locals frame)))

/-- The code of a function. -/
def code (f : FunctionId) : Naming RegionId := do region (.code f (← space .code))

/-- A string literal. -/
def string (e : ExprId) : Naming RegionId := do
  region (.string e (← space (.globals .immutable)))

/-- An object that an expression makes. -/
def temporary (e : ExprId) (frame : FrameId) : Naming RegionId := do
  region (.temporary e (← space (.locals frame)))

end Naming

end PathScout
