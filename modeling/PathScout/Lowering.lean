import PathScout.Program
import PathScout.Tree

/-!
# Building a typed program

The state of building one function, and the steps that change it.

* `SemanticError`: why a source unit is not a program.
* `Lowering`: the program so far and the open function. `Lower`: an action on it that may fail.
* `newBlock`, `pushElement`, `terminate`, `jump`: blocks and their steps. After a block has ended
  there is no open block; a step then opens a block that nothing leads to.
* `declareVar`, `lookup`, `resolveFunction`: names.
* `convert`, `requireScalar`, `requireInteger`, `toValue`: types of operands.
-/

namespace PathScout

/-- Why operands do not fit their place. -/
inductive OperandFault where
  | operands (op : BinaryOp) (left right : CType)
  | notScalar (type : CType)
  | notInteger (type : CType)
  | switchOn (type : CType)
  | subscripted (type : CType)
  | notPointer (type : CType)
  | notStructPointer (type : CType)
  | notStruct (type : CType)
  | arrayFromExpr

/-- The wording of such a fault. -/
def OperandFault.text : OperandFault → String
  | operands op l r => "'" ++ l.text ++ "' " ++ op.symbol ++ " '" ++ r.text ++ "'"
  | notScalar t => "'" ++ t.text ++ "' is not a scalar"
  | notInteger t => "'" ++ t.text ++ "' is not an integer"
  | switchOn t => "switch on '" ++ t.text ++ "'"
  | subscripted t => "subscripted value of type '" ++ t.text ++ "'"
  | notPointer t => "indirection requires pointer operand ('" ++ t.text ++ "' invalid)"
  | notStructPointer t =>
    "member reference type '" ++ t.text ++ "' is not a pointer to a struct"
  | notStruct t => "member reference base type '" ++ t.text ++ "' is not a struct"
  | arrayFromExpr => "array initializer must be an initializer list"

/-- Why a source unit is not a program. -/
inductive SemanticCause where
  | unknownIdentifier (name : String)
  | unknownStruct (name : String)
  | unknownField (owner field : String)
  | argumentCount (function : String) (expected got : Nat)
  | notAssignable
  | invalidOperands (fault : OperandFault)
  | misplacedJump (statement : String)
  | undefinedLabel (label : String)
  | redefinition (name : String)
  | nonConstant
  | incompatibleTypes (source target : CType)

/-- The wording of such a cause. -/
def SemanticCause.text : SemanticCause → String
  | unknownIdentifier name => "use of undeclared identifier '" ++ name ++ "'"
  | unknownStruct name => "unknown struct '" ++ name ++ "'"
  | unknownField owner field =>
    "no member named '" ++ field ++ "' in 'struct " ++ owner ++ "'"
  | argumentCount function expected got =>
    "'" ++ function ++ "' expects " ++ toString expected ++ " argument(s), got " ++ toString got
  | notAssignable => "expression is not assignable"
  | invalidOperands fault => "invalid operands: " ++ fault.text
  | misplacedJump statement => "'" ++ statement ++ "' statement not in loop or switch statement"
  | undefinedLabel label => "use of undeclared label '" ++ label ++ "'"
  | redefinition name => "redefinition of '" ++ name ++ "'"
  | nonConstant => "expression is not an integer constant"
  | incompatibleTypes source target =>
    "cannot convert '" ++ source.text ++ "' to '" ++ target.text ++ "'"

/-- A cause and where it stands. -/
structure SemanticError where
  cause : SemanticCause
  location : Location

/-- The full text of an error. -/
def SemanticError.message (e : SemanticError) : String := e.location.text ++ ": " ++ e.cause.text

/-- A block that may still grow; without an end it leads to the exit. -/
structure OpenBlock where
  elements : Array Element := #[]
  terminator : Option Terminator := none
  loopHead : Bool := false

/-- Where `break` and `continue` lead. A switch has no place to continue. -/
structure JumpTargets where
  breakTo : BlockId
  continueTo : Option BlockId

/-- What is known of a label. -/
structure LabelInfo where
  block : BlockId
  isDefined : Bool
  firstUse : Location

/-- Names and the variables they stand for; the latest comes first. -/
abbrev Names := List (String × VarId)

/-- The program so far and the function that is being built. -/
structure Lowering where
  program : Program
  globals : Names
  function : FunctionId
  returns : CType
  blocks : Array OpenBlock := #[]
  current : Option BlockId := none
  scopes : List Names := [[]]
  locals : Array VarId := #[]
  targets : List JumpTargets := []
  labels : List (String × LabelInfo) := []

/-- Actions that build a function and may fail. -/
abbrev Lower := StateT Lowering (Except SemanticError)

namespace Lower

/-- Gives up. -/
def fail {α : Type} (cause : SemanticCause) (location : Location) : Lower α :=
  throw ⟨cause, location⟩

/-! ### Blocks -/

/-- Opens a new block, which is not yet the current one. -/
def newBlock : Lower BlockId := fun s =>
  .ok (⟨s.blocks.size⟩, { s with blocks := s.blocks.push {} })

/-- Makes a block the current one. -/
def setCurrent (b : Option BlockId) : Lower Unit := modify fun s => { s with current := b }

/-- The current block, or a new one that nothing leads to. -/
def ensureCurrent : Lower BlockId := do
  match (← get).current with
  | some b => return b
  | none =>
    let b ← newBlock
    setCurrent (some b)
    return b

/-- Changes one block. -/
def changeBlock (b : BlockId) (f : OpenBlock → OpenBlock) : Lower Unit :=
  modify fun s => { s with blocks := s.blocks.modify b.index f }

/-- Adds a step to the current block. -/
def pushElement (e : Element) : Lower Unit := do
  let b ← ensureCurrent
  changeBlock b fun block => { block with elements := block.elements.push e }

/-- Ends the current block. -/
def terminate (t : Terminator) : Lower Unit := do
  let b ← ensureCurrent
  changeBlock b fun block => { block with terminator := some t }
  setCurrent none

/-- Ends the current block with a jump. -/
def jump (target : BlockId) (kind : JumpKind) : Lower Unit := terminate (.goto target kind)

/-- Ends the current block with a jump, if there is one. -/
def jumpIfOpen (target : BlockId) : Lower Unit := do
  if (← get).current.isSome then jump target .fallthrough

/-- Marks a block as the head of a loop. -/
def markLoopHead (b : BlockId) : Lower Unit := changeBlock b fun block => { block with loopHead := true }

/-- Marks the last step of a block, if it is an expression, as the root of a statement. -/
def OpenBlock.markRoot (block : OpenBlock) : OpenBlock :=
  match block.elements.back? with
  | some (.expr e _) => { block with elements := block.elements.pop.push (.expr e true) }
  | _ => block

/-- Marks the last expression of the current block as the root of a statement. -/
def markRoot : Lower Unit := do
  match (← get).current with
  | some b => changeBlock b OpenBlock.markRoot
  | none => return

/-! ### Expressions -/

/-- Adds an expression to the table without evaluating it. -/
def addDetached (op : Operation) (type : CType) (span : Span) : Lower ExprId := fun s =>
  .ok (⟨s.program.exprs.size⟩,
    { s with program := { s.program with exprs := s.program.exprs.push ⟨op, type, span⟩ } })

/-- Adds an expression and evaluates it in the current block. -/
def addExpr (op : Operation) (type : CType) (span : Span) : Lower ExprId := do
  let e ← addDetached op type span
  pushElement (.expr e false)
  return e

/-- An expression of the table. -/
def exprOf (e : ExprId) : Lower TypedExpr := do return (← get).program.expr e

/-- The type of an expression. -/
def typeOf (e : ExprId) : Lower CType := do return (← exprOf e).type

/-! ### Names -/

/-- Declares a variable in the innermost scope. -/
def declareVar (name : String) (type : CType) (kind : VarKind) (location : Location) :
    Lower VarId := do
  let s ← get
  let scope := s.scopes.headD []
  if !name.isEmpty && (scope.lookup name).isSome then fail (.redefinition name) location
  else
    let v : VarId := ⟨s.program.vars.size⟩
    modify fun s =>
      { s with
        program := { s.program with
          vars := s.program.vars.push ⟨name, type, kind, some s.function, location⟩ }
        scopes := match s.scopes with
          | scope :: outer => ((name, v) :: scope) :: outer
          | [] => []
        locals := match kind with
          | .param _ => s.locals
          | _ => s.locals.push v }
    return v

/-- The variable that a name stands for: the innermost declaration, else a global one. -/
def lookup? (s : Lowering) (name : String) : Option VarId :=
  (s.scopes.findSome? (List.lookup name)).or (s.globals.lookup name)

/-- Runs an action in a scope of its own. -/
def inScope {α : Type} (act : Lower α) : Lower α := do
  modify fun s => { s with scopes := [] :: s.scopes }
  let a ← act
  modify fun s => { s with scopes := s.scopes.tail }
  return a

/-- Runs an action inside a loop or a switch. -/
def inTargets {α : Type} (targets : JumpTargets) (act : Lower α) : Lower α := do
  modify fun s => { s with targets := targets :: s.targets }
  let a ← act
  modify fun s => { s with targets := s.targets.tail }
  return a

/-- What the functions of the standard library return and take, and whether they take more. -/
def librarySignature? (name : String) : Option (CType × List CType × Bool) :=
  match name with
  | "malloc" => some (.pointer .void, [.int], false)
  | "calloc" => some (.pointer .void, [.int, .int], false)
  | "alloca" => some (.pointer .void, [.int], false)
  | "free" => some (.void, [.pointer .void], false)
  | "exit" => some (.void, [.int], false)
  | "abort" => some (.void, [], false)
  | "printf" => some (.int, [.pointer .char], true)
  | _ => none

/-- The function that a name stands for. One that is not declared has the signature of the
standard library, or takes anything and returns an integer. -/
def resolveFunction (name : String) (location : Location) : Lower FunctionId := do
  let s ← get
  match s.program.functionNamed? name with
  | some f => return f
  | none =>
    let (returns, params, variadic) := (librarySignature? name).getD (.int, [], true)
    modify fun s =>
      { s with program := { s.program with
          functions := s.program.functions.push
            ⟨name, returns, params, [], variadic, none, location, location⟩ } }
    return ⟨s.program.functions.size⟩

/-- The block of a label, opened at its first use. -/
def labelBlock (name : String) (location : Location) : Lower BlockId := do
  match (← get).labels.lookup name with
  | some info => return info.block
  | none =>
    let b ← newBlock
    modify fun s => { s with labels := s.labels ++ [(name, ⟨b, false, location⟩)] }
    return b

/-! ### Types -/

/-- Fails on a structure that is not defined, also inside an array. -/
def checkComplete (p : Program) (type : CType) (location : Location) : Except SemanticError Unit :=
  match type with
  | .struct name =>
    if (p.structNamed? name).isSome then .ok () else .error ⟨.unknownStruct name, location⟩
  | .array element _ => checkComplete p element location
  | _ => .ok ()

/-- Fails on a structure that is not defined in the program so far. -/
def requireComplete (type : CType) (location : Location) : Lower Unit := do
  liftM (checkComplete (← get).program type location)

/-- The value of an expression: a place is read, or becomes a pointer if it is an array. -/
def toValue (e : ExprId) : Lower ExprId := do
  let x ← exprOf e
  if !x.op.isPlace then return e
  else if x.type.isArray then addExpr (.decay e) x.type.decayed x.span
  else addExpr (.load e) x.type x.span

/-- Converts a value: scalars to scalars, and anything to `void`. -/
def convert (e : ExprId) (target : CType) : Lower ExprId := do
  let x ← exprOf e
  if x.type = target then return e
  else if target.isVoid || (x.type.isScalar && target.isScalar) then
    addExpr (.cast e) target x.span
  else fail (.incompatibleTypes x.type target) x.location

/-- Fails unless the expression is a scalar. -/
def requireScalar (e : ExprId) : Lower Unit := do
  let x ← exprOf e
  if x.type.isScalar then return
  else fail (.invalidOperands (.notScalar x.type)) x.location

/-- Converts an integer to `int`, and fails on anything else. -/
def requireInteger (e : ExprId) : Lower ExprId := do
  let x ← exprOf e
  if x.type.isInteger then convert e .int
  else fail (.invalidOperands (.notInteger x.type)) x.location

end Lower

end PathScout
