import PathScout.Value.Fold

/-!
# What is known of symbols

Every symbol that is constrained has the set of values that it may still take. An assumption
narrows the set; if nothing is left, the path is impossible.

* `Constraints.narrow`: restricts a symbol; a sum with a constant restricts the symbol in it.
* `Constraints.assumeSymbol`: assumes that a symbol is true or false; comparisons with a constant
  restrict the symbol that is compared.
* `Constraints.assume`: the same for any value.
* `Constraints.known?`: the value of a symbol, if only one is left.
-/

namespace PathScout

/-- The values that symbols may still take. -/
abbrev Constraints := OrderedMap SymbolId RangeSet

/-- The symbol and the constant that a symbol compares. -/
def Symbol.comparison? : Symbol → Option (SymbolId × BinaryOp × Int)
  | .symInt l op k _ => if op.isComparison then some (l, op, k) else none
  | .intSym k op r _ => if op.isComparison then op.reversed?.map (r, ·, k) else none
  | _ => none

/-- The symbol in a sum or difference with a constant, and what the sum is more than it. -/
def Symbol.shifted? : Symbol → Option (SymbolId × Int)
  | .symInt l .add k _ => some (l, k)
  | .symInt l .sub k _ => some (l, Word.wrap (-k))
  | _ => none

namespace Catalog

variable {c : Catalog} {s : SymbolId}

/-- What a symbol compares, where the compared symbol is older. -/
def comparison? (c : Catalog) (s : SymbolId) : Option (SymbolId × BinaryOp × Int) :=
  (c.symbol s).comparison?.filter fun p => p.1.index < s.index

/-- What a symbol is a sum of, where the symbol in the sum is older. -/
def shifted? (c : Catalog) (s : SymbolId) : Option (SymbolId × Int) :=
  (c.symbol s).shifted?.filter fun p => p.1.index < s.index

theorem comparison?_lt {p : SymbolId × BinaryOp × Int} (h : c.comparison? s = some p) :
    p.1.index < s.index := by
  simpa using (Option.filter_eq_some_iff.1 h).2

theorem shifted?_lt {p : SymbolId × Int} (h : c.shifted? s = some p) : p.1.index < s.index := by
  simpa using (Option.filter_eq_some_iff.1 h).2

end Catalog

namespace Constraints

/-- The values that a symbol may take. -/
def range (m : Constraints) (c : Catalog) (s : SymbolId) : RangeSet :=
  (m.get? s).getD (.domain (c.symbol s).type)

/-- Restricts a symbol to the allowed values, unless none is left. -/
def narrow (m : Constraints) (c : Catalog) (s : SymbolId) (allowed : RangeSet) :
    Option Constraints :=
  match _h : c.shifted? s with
  | some p =>
    let shifted := allowed.shift (Word.wrap (-p.2)) (c.symbol s).type
    narrow m c p.1 (shifted.inter (.domain (c.symbol p.1).type))
  | none =>
    let narrowed := (m.range c s).inter allowed
    if narrowed.isEmpty then none else some (m.insert s narrowed)
termination_by s.index
decreasing_by exact Catalog.shifted?_lt _h

/-- Restricts a symbol to the values in a relation to a constant. -/
def narrowBy (m : Constraints) (c : Catalog) (s : SymbolId) (op : BinaryOp) (k : Int) :
    Option Constraints :=
  m.narrow c s (.satisfying op k (c.symbol s).type)

/-- Assumes that a symbol is true (not zero) or false (zero). -/
def assumeSymbol (m : Constraints) (c : Catalog) (s : SymbolId) (truth : Bool) :
    Option Constraints :=
  match _h : c.comparison? s with
  | none => m.narrowBy c s (if truth then .ne else .eq) 0
  | some p =>
    match if truth then some p.2.1 else p.2.1.negated? with
    | none => some m
    | some op =>
      if p.2.2 = 0 ∧ (op = .eq ∨ op = .ne) ∧ (c.comparison? p.1).isSome then
        assumeSymbol m c p.1 (op = .ne)
      else m.narrowBy c p.1 op p.2.2
termination_by s.index
decreasing_by exact Catalog.comparison?_lt _h

/-- Assumes that a place is not null, or null. Known objects are never null. -/
def assumeLoc (m : Constraints) (c : Catalog) (l : Loc) (truth : Bool) : Option Constraints :=
  match l with
  | .address n => if (n ≠ 0) = truth then some m else none
  | .region r =>
    match c.symbolicBase? r with
    | some s => m.assumeSymbol c s truth
    | none => if truth then some m else none

/-- Assumes that a value is true or false. What is not followed is taken to be either. -/
def assume (m : Constraints) (c : Catalog) (v : Value) (truth : Bool) : Option Constraints :=
  match v with
  | .undefined | .unknown | .snapshot .. => some m
  | .loc l | .locAsInt l => m.assumeLoc c l truth
  | .int n => if (n ≠ 0) = truth then some m else none
  | .symbol s => m.assumeSymbol c s truth

/-- The value of a symbol, if only one is left for it or for the symbol that it is a sum of. -/
def known? (m : Constraints) (c : Catalog) (s : SymbolId) : Option Int :=
  match (m.get? s).bind (·.single?) with
  | some n => some n
  | none =>
    match c.symbol s with
    | .symInt l op k t =>
      if _h : (op = .add ∨ op = .sub) ∧ l.index < s.index then do
        (foldInts op (← known? m c l) k t).int?
      else none
    | _ => none
termination_by s.index
decreasing_by exact _h.2

end Constraints

end PathScout
