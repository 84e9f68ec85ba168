import PathScout.RangeSet
import PathScout.Value

/-!
# Operations on values

Known operands are computed with, wrapping at the width of the result. A symbol with a constant
makes a new symbol; pointers move between elements; pointers are compared by the regions they
point to. An undefined operand makes the result undefined, and whatever else cannot be expressed
is unknown.

* `foldInts`: an operator on two known integers.
* `Naming.binary`, `Naming.unary`, `Value.cast`, `Value.pointerDiff`: the operations on values.
* `Naming.symbolValue`, `Naming.conjure`, `Naming.regionValue`, `Naming.derivedValue`: values that
  are not known.
-/

namespace PathScout

/-- An operator on two known integers. Division by zero and shifts by the width or more are
undefined. -/
def foldInts (op : BinaryOp) (l r : Int) (t : CType) : Value :=
  let width : Int := t.bitWidth?.getD 64
  let done (n : Int) : Value := .int (t.wrap n)
  match op with
  | .add => done (Word.wrap (l + r))
  | .sub => done (Word.wrap (l - r))
  | .mul => done (Word.wrap (l * r))
  | .div => if r = 0 then .undefined else done (Word.wrap (l.tdiv r))
  | .rem => if r = 0 then .undefined else done (l.tmod r)
  | .shl => if r < 0 ∨ width ≤ r then .undefined else done (Word.shl l r.toNat)
  | .shr => if r < 0 ∨ width ≤ r then .undefined else done (Word.shr l r.toNat)
  | .bitAnd => done (Word.land l r)
  | .bitOr => done (Word.lor l r)
  | .bitXor => done (Word.lxor l r)
  | .eq => done (Word.ofBool (l == r))
  | .ne => done (Word.ofBool (l != r))
  | .lt => done (Word.ofBool (l < r))
  | .le => done (Word.ofBool (l ≤ r))
  | .gt => done (Word.ofBool (l > r))
  | .ge => done (Word.ofBool (l ≥ r))

/-- An integer as a value of a type. -/
def Value.ofInt (n : Int) (t : CType) : Value :=
  if t.isPointer then .loc (.address n) else .int (t.wrap n)

/-- Zero as a pointer or as an integer, like a given value. -/
def Value.zeroLike : Value → Value
  | .loc _ => .null
  | _ => .int 0

namespace Naming

/-- The value that a symbol stands for: pointers point to memory of their own. -/
def symbolValue (s : SymbolId) : Naming Value := do
  if ← query fun c => (c.symbol s).type.isPointer then return .pointer (← symbolic s)
  else return .symbol s

/-- The value of a new symbol, if its type is a scalar. -/
def scalarValue (s : Symbol) : Naming Value := do
  if s.type.isScalar then symbolValue (← symbol s) else return .unknown

/-- A fresh unknown value. -/
def conjure (e : ExprId) (frame : FrameId) (t : CType) (count : Nat) : Naming Value :=
  scalarValue (.conjured e frame t count none)

/-- What a region held at first. -/
def regionValue (r : RegionId) (t : CType) : Naming Value := scalarValue (.regionValue r t)

/-- A part of an unknown whole. -/
def derivedValue (parent : SymbolId) (r : RegionId) (t : CType) : Naming Value :=
  scalarValue (.derived parent r t)

/-- The value of a symbol with a neutral or an absorbing constant. -/
def simplified? (s : SymbolId) (op : BinaryOp) (k : Int) : Option Value :=
  match op, k with
  | .add, 0 | .sub, 0 | .bitOr, 0 | .bitXor, 0 | .shl, 0 | .shr, 0 | .mul, 1 | .div, 1 =>
    some (.symbol s)
  | .mul, 0 | .bitAnd, 0 => some (.int 0)
  | _, _ => none

/-- A constant that is added or subtracted, as a constant that is added. -/
def addend (op : BinaryOp) (k : Int) : Int := if op = .add then k else Word.wrap (-k)

/-- The symbol and the constant of a sum or difference of them, when another constant is added to
it or subtracted. -/
def gather? (c : Catalog) (s : SymbolId) (op : BinaryOp) : Option (SymbolId × Int) :=
  let sum : Option (SymbolId × Int) :=
    if op = .add ∨ op = .sub then
      match c.symbol s with
      | .symInt l .add k _ => some (l, k)
      | .symInt l .sub k _ => some (l, Word.wrap (-k))
      | _ => none
    else none
  sum.filter fun p => p.1.index < s.index

theorem gather?_lt {c : Catalog} {s : SymbolId} {op : BinaryOp} {p : SymbolId × Int}
    (h : gather? c s op = some p) : p.1.index < s.index := by
  simpa using (Option.filter_eq_some_iff.1 h).2

/-- A symbol with a constant on its right. Sums of a sum and a constant are gathered. -/
def symbolWithInt (s : SymbolId) (op : BinaryOp) (k : Int) (t : CType) (c : Catalog) :
    Value × Catalog :=
  match simplified? s op k with
  | some v => (v, c)
  | none =>
    match _h : gather? c s op with
    | some p => symbolWithInt p.1 .add (t.wrap (Word.wrap (p.2 + addend op k))) t c
    | none =>
      let (i, c) := symbol (.symInt s op k t) c
      (.symbol i, c)
termination_by s.index
decreasing_by exact gather?_lt _h

/-- An operator on a symbol and itself, where its value is known. -/
def sameSymbol? : BinaryOp → Option Int
  | .sub | .bitXor | .ne | .lt | .gt => some 0
  | .eq | .le | .ge => some 1
  | _ => none

/-- A region compared with a fixed address. Only null says something: memory behind an unknown
pointer is null exactly when the pointer is, and known objects never are. -/
def compareWithAddress (op : BinaryOp) (r : RegionId) (n : Int) : Naming Value := do
  if n ≠ 0 ∨ ¬(op = .eq ∨ op = .ne) then return .unknown
  else
    match ← query (·.symbolicBase? r) with
    | some s => return .symbol (← symbol (.symInt s op 0 .int))
    | none => return .int (Word.ofBool (op = .ne))

/-- Two regions compared: distinct known objects differ, and parts of one object are ordered by
their offsets. -/
def compareRegions (c : Catalog) (op : BinaryOp) (a b : RegionId) : Value :=
  let isSymbolic (r : RegionId) : Bool :=
    match c.region r with
    | .symbolic .. => true
    | _ => false
  if a = b then foldInts op 0 0 .int
  else if c.base a ≠ c.base b then
    if isSymbolic (c.base a) || isSymbolic (c.base b) then .unknown
    else match op with
      | .eq => .int 0
      | .ne => .int 1
      | _ => .unknown
  else match c.offset? a, c.offset? b with
    | some x, some y => foldInts op x.2 y.2 .int
    | _, _ => .unknown

/-- An operator on two places. -/
def binaryLocs (op : BinaryOp) (l r : Loc) : Naming Value :=
  match l, r with
  | .address a, .address b => return foldInts op a b (.pointer .void)
  | .region a, .address n => compareWithAddress op a n
  | .address n, .region a =>
    match op.reversed? with
    | some op => compareWithAddress op a n
    | none => return .unknown
  | .region a, .region b => query fun c => compareRegions c op a b

/-- The type of what a pointer moves over; pointers without one move over bytes. -/
def steppedType (t : CType) : CType :=
  match t.pointee? with
  | some .void | none => .char
  | some t => t

/-- A region moved by a known number of elements. -/
def moveRegion (t : CType) (r : RegionId) (n : Int) : Naming Value := do
  if n = 0 then return .pointer r
  else
    match ← query (·.region r) with
    | .element t' (.known i) parent =>
      if t' = t then return .pointer (← region (.element t (.known (Word.wrap (i + n))) parent))
      else return .pointer (← region (.element t (.known n) r))
    | _ => return .pointer (← region (.element t (.known n) r))

/-- A region moved by an unknown number of elements. -/
def moveRegionBy (t : CType) (r : RegionId) (s : SymbolId) : Naming Value := do
  match ← query (·.region r) with
  | .element t' (.known 0) parent =>
    if t' = t then return .pointer (← region (.element t (.symbolic s) parent))
    else return .unknown
  | .element .. => return .unknown
  | _ => return .pointer (← region (.element t (.symbolic s) r))

/-- A pointer with an integer: it moves by elements, or is compared as an address. -/
def binaryLocInt (op : BinaryOp) (l : Loc) (v : Value) (t : CType) : Naming Value :=
  if op = .add ∨ op = .sub then
    let stepped := steppedType t
    match l, v with
    | .address a, .int n => do
      let size ← query fun c => c.program.sizeWord stepped
      let delta := Word.wrap (n * size)
      return .loc (.address (Word.wrap (if op = .add then a + delta else a - delta)))
    | .region r, .int n => moveRegion stepped r (addend op n)
    | .region r, .symbol s => if op = .add then moveRegionBy stepped r s else return .unknown
    | _, _ => return .unknown
  else
    match v with
    | .int n => if op.isComparison then binaryLocs op l (.address n) else return .unknown
    | _ => return .unknown

/-- An operator on two integers, one of which may be unknown. -/
def binaryInts (op : BinaryOp) (l r : Value) (t : CType) : Naming Value :=
  match l, r with
  | .int a, .int b => return foldInts op a b t
  | .symbol s, .int k => symbolWithInt s op k t
  | .int k, .symbol s =>
    match op.reversed? with
    | some op => symbolWithInt s op k t
    | none =>
      if op.isCommutative then symbolWithInt s op k t
      else do return .symbol (← symbol (.intSym k op s t))
  | .symbol a, .symbol b => do
    match if a = b then sameSymbol? op else none with
    | some n => return .int n
    | none => return .symbol (← symbol (.symSym a op b t))
  | .locAsInt l, .int n => if op.isComparison then binaryLocs op l (.address n) else return .unknown
  | _, _ => return .unknown

/-- An operator on two values, with a result of the given type. -/
def binary (op : BinaryOp) (l r : Value) (t : CType) : Naming Value :=
  if l.isUndefined || r.isUndefined then return .undefined
  else if l.isUnknown || r.isUnknown then return .unknown
  else
    match l, r with
    | .loc l, .loc r => binaryLocs op l r
    | .loc l, r => binaryLocInt op l r t
    | l, .loc r => if op = .add then binaryLocInt op r l t else return .unknown
    | l, r => binaryInts op l r t

/-- An operator on one value. -/
def unary (op : ValueOp) (v : Value) (t : CType) : Naming Value :=
  match op with
  | .not => binary .eq v v.zeroLike .int
  | .neg => binary .sub (.int 0) v t
  | .bitNot => binary .bitXor v (.int (-1)) t

end Naming

namespace Value

/-- The number of elements between two pointers, if both point to elements of one array. -/
def pointerDiff (c : Catalog) (l r : Value) : Value :=
  match l, r with
  | .loc (.region a), .loc (.region b) =>
    if a = b then .int 0
    else match c.region a, c.region b with
      | .element t (.known i) p, .element u (.known j) q =>
        if p = q ∧ t = u then .int (Word.wrap (i - j)) else .unknown
      | _, _ => .unknown
  | .loc (.address a), .loc (.address b) => .int (Word.wrap (a - b))
  | l, r => if l.isUndefined || r.isUndefined then .undefined else .unknown

/-- A value as a value of another type. -/
def cast (v : Value) (source target : CType) : Value :=
  if target.isVoid then .unknown
  else if v.isUnknown || v.isUndefined || source = target then v
  else match v with
    | .int n => if target.isPointer then .loc (.address n) else .int (target.wrap n)
    | .locAsInt l => if target.isPointer then .loc l else v
    | .symbol _ => if target.isPointer then .unknown else v
    | .loc (.address n) => if target.isInteger then .int (target.wrap n) else v
    | .loc l => if target.isInteger then .locAsInt l else v
    | v => v

end Value

end PathScout
