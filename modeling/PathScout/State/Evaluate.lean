import PathScout.State

/-!
# Values of expressions

* `State.evaluate?`: the value of an expression whose value depends on those of its operands only.
  Reading and writing memory, calls and joins are not among them.
* `State.updated`: what an assignment stores and what its value is.
* `State.initialize`: the contents of a variable that is declared with an initial value.
* `State.ofGlobals`: the contents of the global variables when a program starts.
-/

namespace PathScout

namespace Naming

/-- The pointer to a part of what a value points to. Other values stay as they are. -/
def within (v : Value) (part : RegionId → Naming RegionId) : Naming Value :=
  match v.region? with
  | some r => do return .pointer (← part r)
  | none => return v

end Naming

namespace State

/-- The value of an expression in terms of those of its operands. -/
def evaluate? (s : State) (f : FrameId) (e : ExprId) : Naming (Option Value) := do
  let program ← Naming.query (·.program)
  let expr := program.expr e
  let typeOf (a : ExprId) : CType := (program.expr a).type
  match expr.op with
  | .int n => return some (.ofInt n expr.type)
  | .null => return some .null
  | .string _ => return some (.pointer (← Naming.string e))
  | .var v => return some (.pointer (← Naming.var v f))
  | .addrOf a => return some (s.value f a)
  | .decay a =>
    let element := ((typeOf a).element? <|> expr.type.pointee?).getD .char
    return some (← Naming.within (s.value f a) fun r =>
      Naming.region (.element element (.known 0) r))
  | .deref a => return some (← Naming.within (s.value f a) (Naming.castRegion · expr.type))
  | .unary op a => return some (← Naming.unary op (s.value f a) expr.type)
  | .binary op l r =>
    if op = .sub ∧ (typeOf l).isPointer ∧ (typeOf r).isPointer then
      return some (← Naming.query fun c => Value.pointerDiff c (s.value f l) (s.value f r))
    else return some (← Naming.binary op (s.value f l) (s.value f r) expr.type)
  | .member a field =>
    return some (← Naming.within (s.value f a) fun r => Naming.region (.field field r))
  | .index a i =>
    let element ← Naming.binary .add (s.value f a) (s.value f i) (typeOf a)
    return some (← Naming.within element (Naming.castRegion · expr.type))
  | .cast a => return some ((s.value f a).cast (typeOf a) expr.type)
  | .load _ | .assign .. | .compound .. | .incDec .. | .call .. | .join => return none

/-- What an assignment to a place stores there and what its own value is, given what the place
held before. -/
def updated (s : State) (f : FrameId) (e : TypedExpr) (old : Value) : Naming (Value × Value) := do
  match e.op with
  | .assign _ value => return (s.value f value, s.value f value)
  | .compound op _ value =>
    let new ← Naming.binary op old (s.value f value) e.type
    return (new, new)
  | .incDec _ increment before =>
    let step := if e.type.isPointer then .int 1 else Value.ofInt 1 e.type
    let new ← Naming.binary (if increment then .add else .sub) old step e.type
    return (new, if before then new else old)
  | _ => return (old, old)

/-! ### Initial values -/

/-- Writes a value to a region. -/
def write (s : State) (p : StorePolicy) (r : RegionId) (v : Value) : Naming State :=
  Naming.query fun c => s.bind p c (.region r) v

/-- Forgets what an aggregate held and sets all its parts to zero. -/
def zeroed (s : State) (p : StorePolicy) (r : RegionId) : Naming State :=
  Naming.query fun c => (s.kill c r).bindDefault p r (.int 0)

/-- Fills an array with the bytes of a text. -/
def writeText (s : State) (p : StorePolicy) (r : RegionId) (text : String) : Naming State := do
  let s ← s.zeroed p r
  text.toUTF8.toList.zipIdx.foldlM (fun s (byte, i) => do
    let element ← Naming.region (.element .char (.known i) r)
    s.write p element (.ofInt byte.toNat .char)) s

/-- The part of an object of type `t` that some steps lead to. -/
def partAt (r : RegionId) (t : CType) : List InitStep → Naming RegionId
  | [] => return r
  | .element i :: rest => do
    let element := t.element?.getD .int
    partAt (← Naming.region (.element element (.known i) r)) element rest
  | .field field :: rest => do
    let type ← Naming.query fun c => (c.program.field field).type
    partAt (← Naming.region (.field field r)) type rest

/-- Sets the listed parts of an aggregate to their values and all others to zero. -/
def writeList (s : State) (p : StorePolicy) (f : FrameId) (r : RegionId) (t : CType)
    (entries : List InitEntry) : Naming State := do
  let s ← s.zeroed p r
  entries.foldlM (fun s entry => do
    let part ← partAt r t entry.path
    s.write p part (s.value f entry.value)) s

/-! ### Global variables -/

/-- The part of an aggregate at a position, and its type. -/
def partOf? (r : RegionId) (t : CType) (i : Nat) : Naming (Option (RegionId × CType)) := do
  match t with
  | .array element _ => return some (← Naming.region (.element element (.known i) r), element)
  | .struct name =>
    let program ← Naming.query (·.program)
    match program.structNamed? name with
    | none => return none
    | some owner =>
      match (program.struct owner).fields[i]? with
      | none => return none
      | some info => return some (← Naming.region (.field ⟨owner, i⟩ r), info.type)
  | _ => return none

mutual

/-- Sets a region to a constant. -/
def writeConst (p : StorePolicy) (s : State) (r : RegionId) (t : CType) :
    ConstInit → Naming State
  | .int n => s.write p r (.ofInt n t)
  | .null => s.write p r .null
  | .string e =>
    if t.isPointer then do
      let text ← Naming.string e
      s.write p r (.pointer (← Naming.region (.element .char (.known 0) text)))
    else return s
  | .list items => writeConsts p (s.bindDefault p r (.int 0)) r t 0 items

/-- Sets the parts of an aggregate, from a position on, to constants. -/
def writeConsts (p : StorePolicy) (s : State) (r : RegionId) (t : CType) (i : Nat) :
    List ConstInit → Naming State
  | [] => return s
  | item :: rest => do
    match ← partOf? r t i with
    | none => return s
    | some (part, type) => writeConsts p (← writeConst p s part type item) r t (i + 1) rest

end

/-- The state in which the global variables hold what they start with. -/
def ofGlobals (p : StorePolicy) (f : FrameId) : Naming State := do
  let program ← Naming.query (·.program)
  program.globals.foldlM (fun s g => do
    let r ← Naming.var g.var f
    match g.value with
    | none => return s.bindDefault p r (.int 0)
    | some init => writeConst p s r (program.var g.var).type init) {}

end State

end PathScout
