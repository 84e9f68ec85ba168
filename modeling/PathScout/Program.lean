import PathScout.Flow
import PathScout.Liveness
import PathScout.Word

/-!
# Typed programs

* `Variable`, `StructInfo`, `Function`: what a program declares.
* `Program`: the tables of a program.
* `Program.size?`, `Program.byteSize`, `Program.sizeWord`, `Program.fieldOffset`: layout without padding.
* `Program.describe?`: an expression in the words of the source, where it has a name.
-/

namespace PathScout

/-- Where a variable lives. -/
inductive VarKind where
  | local
  | param (position : Nat)
  | global (isStatic : Bool)
  | staticLocal
deriving DecidableEq, Inhabited

/-- A variable of the program. -/
structure Variable where
  name : String
  type : CType
  kind : VarKind
  function : Option FunctionId
  location : Location
deriving Inhabited

/-- Does the variable live as long as the program runs? -/
def Variable.hasGlobalStorage (v : Variable) : Bool :=
  match v.kind with
  | .global _ | .staticLocal => true
  | _ => false

/-- Is the variable a parameter? -/
def Variable.isParam (v : Variable) : Bool :=
  match v.kind with
  | .param _ => true
  | _ => false

/-- A field with its type. -/
structure FieldInfo where
  name : String
  type : CType
deriving Inhabited

/-- A structure with its fields. -/
structure StructInfo where
  name : String
  fields : List FieldInfo
  location : Location
deriving Inhabited

/-- The body of a function. -/
structure FunctionBody where
  graph : FlowGraph
  locals : List VarId
  liveness : Liveness

/-- A function with a body, or only announced. -/
structure Function where
  name : String
  returns : CType
  paramTypes : List CType
  params : List VarId
  variadic : Bool
  body : Option FunctionBody
  location : Location
  last : Location
deriving Inhabited

/-- What a global variable starts with. -/
inductive ConstInit where
  | int (value : Int)
  | null
  | string (literal : ExprId)
  | list (elements : List ConstInit)

/-- A global variable and what it starts with. -/
structure GlobalInit where
  var : VarId
  value : Option ConstInit

/-- A typed program. -/
structure Program where
  file : String
  exprs : Array TypedExpr := #[]
  vars : Array Variable := #[]
  functions : Array Function := #[]
  structs : Array StructInfo := #[]
  globals : List GlobalInit := []
  expansions : List Expansion := []

namespace Program

/-- The expression with the given number. -/
def expr (p : Program) (e : ExprId) : TypedExpr := p.exprs[e.index]?.getD default

/-- The variable with the given number. -/
def var (p : Program) (v : VarId) : Variable := p.vars[v.index]?.getD default

/-- The function with the given number. -/
def function (p : Program) (f : FunctionId) : Function := p.functions[f.index]?.getD default

/-- The structure with the given number. -/
def struct (p : Program) (s : StructId) : StructInfo := p.structs[s.index]?.getD default

/-- A field of a structure. -/
def field (p : Program) (f : FieldId) : FieldInfo := (p.struct f.owner).fields[f.index]?.getD default

/-- The function with the given name. -/
def functionNamed? (p : Program) (name : String) : Option FunctionId :=
  (p.functions.findIdx? fun f => f.name == name).map FunctionId.mk

/-- The structure with the given name. -/
def structNamed? (p : Program) (name : String) : Option StructId :=
  (p.structs.findIdx? fun s => s.name == name).map StructId.mk

/-- The functions that have a body. -/
def definedFunctions (p : Program) : List FunctionId :=
  ((List.range p.functions.size).map FunctionId.mk).filter fun f => (p.function f).body.isSome

/-- The variables that live as long as the program runs. -/
def globalVars (p : Program) : List VarId :=
  ((List.range p.vars.size).map VarId.mk).filter fun v => (p.var v).hasGlobalStorage

/-- The size of a type in bytes, that of all its parts. There is no padding, and what is unknown takes
no room. The recursion has no end, and the type no size, where a structure contains itself. -/
def size? (p : Program) (t : CType) : Option Nat :=
  match t with
  | .void | .char => some 1
  | .int => some 4
  | .pointer _ => some 8
  | .array element count => do return (← p |>.size? element) * count.getD 0
  | .struct name =>
    match p.structNamed? name with
    | some s => do return (← (p.struct s).fields.mapM fun f => p |>.size? f.type).foldr (· + ·) 0
    | none => some 0
partial_fixpoint

/-- The size of a type in bytes, if it has one. The program does not come back from asking for the
size of another type. -/
def byteSize (p : Program) (t : CType) : Nat := (p.size? t).getD 0

/-- The size of a type in bytes as a word with sign. Half of the range of addresses and more is
negative. -/
def sizeWord (p : Program) (t : CType) : Int := Word.wrap (p.byteSize t)

/-- How far a field lies behind the start of its structure. -/
def fieldOffset (p : Program) (f : FieldId) : Nat :=
  ((p.struct f.owner).fields.take f.index).foldl (fun n g => n + p.byteSize g.type) 0

/-- An expression in the words of the source, looking at most `depth` operands deep. -/
def describeTo (p : Program) : (depth : Nat) → ExprId → Option String
  | 0, _ => none
  | depth + 1, e =>
    match (p.expr e).op with
    | .var v => some (p.var v).name
    | .load a | .cast a | .decay a => describeTo p depth a
    | .deref a => do return "*" ++ (← describeTo p depth a)
    | .member base field =>
      let name := (p.field field).name
      match (p.expr base).op with
      | .deref pointer => do return (← describeTo p depth pointer) ++ "->" ++ name
      | _ => do return (← describeTo p depth base) ++ "." ++ name
    | .index base i => do
      return (← describeTo p depth base) ++ "[" ++ (← describeTo p depth i) ++ "]"
    | .int n => some (toString n)
    | .null => some "NULL"
    | _ => none

/-- An expression in the words of the source, if it is made of names, literals, indirections,
fields and indices. -/
def describe? (p : Program) (e : ExprId) : Option String := describeTo p (p.exprs.size + 1) e

/-- Where a step of a block stands. -/
def elementLocation (p : Program) : Element → Location
  | .expr e _ | .merge e _ => (p.expr e).location
  | .decl _ _ l | .return _ l => l

/-- The span of a step of a block. -/
def elementSpan (p : Program) : Element → Span
  | .expr e _ | .merge e _ => (p.expr e).span
  | .decl _ _ l => .point l
  | .return (some v) l => ⟨l, (p.expr v).span.last⟩
  | .return none l => .point l

end Program

end PathScout
