import PathScout.Lowering.Stmt

/-!
# Building a whole program

Structures are declared first, so that any declaration may name them; then global variables and
functions in the order of the text; then the bodies.

* `constInit`: what a global variable starts with.
* `declareGlobal`, `declareFunction`: the names at the top of a text.
* `lowerFunction`: the body of a function.
* `Program.ofUnit`: the program of a source unit.
-/

namespace PathScout

open Lower

/-- The outcome of a step that may fail. -/
abbrev Checked := Except SemanticError

/-- The types of the parts that a list sets, if the type has parts. -/
def partTypes (p : Program) (type : CType) (location : Location) (count : Nat) :
    Checked (Option (List CType)) :=
  match type with
  | .array element _ => .ok (some (List.replicate count element))
  | .struct name =>
    match p.structNamed? name with
    | some s => .ok (some ((p.struct s).fields.map (·.type)))
    | none => .error ⟨.unknownStruct name, location⟩
  | _ => .ok none

/-- What a global variable of the given type starts with, when an expression says so. A text that
initialises a pointer becomes an expression of the program. -/
def constInitExpr (p : Program) (type : CType) (e : Expr) : Checked (Program × ConstInit) :=
  match e with
  | .string span s =>
    if type.isArray then .ok (p, .list ((bytesOf s).map fun (b, _) => .int b))
    else
      let literal : TypedExpr := ⟨.string s, .array .char (some (s.utf8ByteSize + 1)), span⟩
      .ok ({ p with exprs := p.exprs.push literal }, .string ⟨p.exprs.size⟩)
  | .null _ => .ok (p, .null)
  | .cast _ _ operand => if type.isPointer then constInitExpr p type operand else number e
  | e => number e
where
  number (e : Expr) : Checked (Program × ConstInit) :=
    match e.constant? with
    | some n => .ok (p, if n = 0 ∧ type.isPointer then .null else .int n)
    | none => .error ⟨.nonConstant, e.location⟩

mutual

/-- What a global variable of the given type starts with. -/
def constInit (p : Program) (type : CType) (init : Initializer) : Checked (Program × ConstInit) :=
  match init with
  | .expr e => constInitExpr p type e
  | .list location items => do
    match ← partTypes p type location items.length with
    | some types =>
      let (p, values) ← constInits p types items
      return (p, .list values)
    | none => constInitFirst p type items

/-- What the parts of an aggregate start with. -/
def constInits (p : Program) (types : List CType) (items : List Initializer) :
    Checked (Program × List ConstInit) :=
  match items, types with
  | item :: items, type :: types => do
    let (p, value) ← constInit p type item
    let (p, more) ← constInits p types items
    return (p, value :: more)
  | _, _ => return (p, [])

/-- A scalar takes the first value of a list, or zero. -/
def constInitFirst (p : Program) (type : CType) (items : List Initializer) :
    Checked (Program × ConstInit) :=
  match items with
  | item :: _ => constInit p type item
  | [] => return (p, .int 0)

end

/-- Declares a structure. -/
def declareStruct (p : Program) (d : StructDecl) : Checked Program :=
  if (p.structNamed? d.name).isSome then .error ⟨.redefinition d.name, d.location⟩
  else
    let info : StructInfo := ⟨d.name, d.fields.map fun f => ⟨f.name, f.type⟩, d.location⟩
    .ok { p with structs := p.structs.push info }

/-- What is known at the top of a text: the program and its global names. -/
structure TopLevel where
  program : Program
  globals : Names
  /-- The functions that have a body in the text so far. -/
  withBody : List String

/-- Does a global variable start with a given value? -/
def hasInit (p : Program) (v : VarId) : Bool := p.globals.any fun g => g.var == v && g.value.isSome

/-- Records what a global variable starts with. -/
def setInit (globals : List GlobalInit) (v : VarId) (value : Option ConstInit) : List GlobalInit :=
  if globals.any (·.var == v) then
    globals.map fun g => if g.var = v then { g with value := value } else g
  else globals ++ [⟨v, value⟩]

/-- Declares a global variable. It may be declared again, but set only once. -/
def declareGlobal (t : TopLevel) (d : VarDecl) : Checked TopLevel := do
  let type := completeArray d.type d.init
  checkComplete t.program type d.location
  match t.globals.lookup d.name, d.init with
  | some _, none => return t
  | some v, some init =>
    if hasInit t.program v then .error ⟨.redefinition d.name, d.location⟩
    else
      let (p, value) ← constInit t.program type init
      return { t with program := { p with globals := setInit p.globals v (some value) } }
  | none, init =>
    let v : VarId := ⟨t.program.vars.size⟩
    let p := { t.program with
      vars := t.program.vars.push ⟨d.name, type, .global d.isStatic, none, d.location⟩ }
    let (p, value) ← match init with
      | some init => do
        let (p, value) ← constInit p type init
        pure (p, some value)
      | none => pure (p, none)
    return { t with
      program := { p with globals := setInit p.globals v value }
      globals := (d.name, v) :: t.globals }

/-- Declares a function. The latest declaration gives its types, its body its place. -/
def declareFunction (t : TopLevel) (d : FunctionDecl) : Checked TopLevel :=
  let paramTypes := d.params.map (·.type)
  let isDefinition := d.body.isSome
  let withBody := if isDefinition then d.name :: t.withBody else t.withBody
  match t.program.functionNamed? d.name with
  | some f =>
    if isDefinition && t.withBody.contains d.name then .error ⟨.redefinition d.name, d.location⟩
    else
      let update (g : Function) : Function :=
        { g with
          location := if isDefinition then d.location else g.location
          last := if isDefinition then d.last else g.last
          returns := d.returns
          paramTypes := paramTypes
          variadic := d.variadic }
      .ok { t with
        program := { t.program with functions := t.program.functions.modify f.index update }
        withBody := withBody }
  | none =>
    .ok { t with
      program := { t.program with
        functions := t.program.functions.push
          ⟨d.name, d.returns, paramTypes, [], d.variadic, none, d.location, d.last⟩ }
      withBody := withBody }

/-- Declares a variable or a function. -/
def declareItem (t : TopLevel) : Item → Checked TopLevel
  | .struct _ => .ok t
  | .global d => declareGlobal t d
  | .function d => declareFunction t d

/-- Declares the parameters of a function. -/
def declareParams (params : List Param) : Lower (List VarId) :=
  params.zipIdx.mapM fun (param, i) => do
    requireComplete param.type param.location
    declareVar (param.name.getD "") param.type (.param i) param.location

/-- Opens the entry and the exit of a function, declares its parameters and builds its body. -/
def lowerBody (d : FunctionDecl) (body : List Stmt) : Lower (List VarId) := do
  let entry ← newBlock
  let exit ← newBlock
  changeBlock exit fun block => { block with terminator := some .exit }
  setCurrent (some entry)
  let params ← declareParams d.params
  lowerStmts body
  jumpIfOpen exit
  return params

/-- The block that an open block becomes. -/
def OpenBlock.close (b : OpenBlock) : Block :=
  ⟨b.elements, b.terminator.getD (.goto ⟨1⟩ .fallthrough), b.loopHead⟩

/-- Builds the body of a function. -/
def lowerFunction (globals : Names) (p : Program) (f : FunctionId) (d : FunctionDecl)
    (body : List Stmt) : Checked Program := do
  let (params, s) ← (lowerBody d body).run
    { program := p, globals := globals, function := f, returns := d.returns }
  match s.labels.find? (!·.2.isDefined) with
  | some (label, info) => .error ⟨.undefinedLabel label, info.firstUse⟩
  | none =>
    let graph : FlowGraph := ⟨s.blocks.map OpenBlock.close, ⟨0⟩, ⟨1⟩⟩
    let scope : Liveness.Scope :=
      ⟨s.program.exprs, fun v => !(s.program.var v).hasGlobalStorage⟩
    let out : FunctionBody := ⟨graph, s.locals.toList, .compute scope graph⟩
    return { s.program with
      functions := s.program.functions.modify f.index fun g =>
        { g with params := params, body := some out } }

/-- Builds the body of a function, if it has one. -/
def lowerDefinition (globals : Names) (p : Program) (d : FunctionDecl) : Checked Program :=
  match d.body, p.functionNamed? d.name with
  | some body, some f => lowerFunction globals p f d body
  | _, _ => .ok p

/-- The program of a source unit. -/
def Program.ofUnit (u : SourceUnit) (file : String) : Checked Program := do
  let start : Program := { file := file, expansions := u.expansions }
  let structs := u.items.filterMap fun
    | .struct d => some d
    | _ => none
  let p ← structs.foldlM declareStruct start
  let t ← u.items.foldlM declareItem ⟨p, [], []⟩
  u.functions.foldlM (lowerDefinition t.globals) t.program

end PathScout
