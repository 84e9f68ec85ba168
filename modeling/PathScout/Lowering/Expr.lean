import PathScout.Lowering

/-!
# Building expressions

An expression is built in one of two ways: for its value, or as a condition that leads to one of
two blocks. Conjunctions and disjunctions as conditions become chains of branches; as values they
become a branch whose ways are joined again.

* `Lowered`: the two ways of building an expression.
* `lower`: both ways for every expression, by recursion on it.
-/

namespace PathScout

open Lower

/-- The two ways of building an expression: its place or value, and a branch on it. -/
structure Lowered where
  place : Lower ExprId
  branch : BlockId → BlockId → BranchKind → Lower Unit

namespace Lowered

/-- Builds the expression for its value. -/
def value (x : Lowered) : Lower ExprId := do toValue (← x.place)

/-- Builds the expression as a place to write to. -/
def target (x : Lowered) (location : Location) : Lower ExprId := do
  let e ← x.place
  if (← exprOf e).op.isPlace then return e else fail .notAssignable location

/-- An expression whose value decides a branch. -/
def ofPlace (location : Location) (place : Lower ExprId) : Lowered where
  place := place
  branch := fun yes no kind => do
    let cond ← toValue (← place)
    requireScalar cond
    terminate (.branch cond yes no kind location)

end Lowered

/-- Sets a joined expression on one way and goes on to the common block. -/
def mergeInto (join : ExprId) (value : MergeValue) (next : BlockId) : Lower Unit := do
  pushElement (.merge join value)
  jump next .fallthrough

/-- A binary operator on two values. -/
def lowerBinary (span : Span) (op : BinaryOp) (left right : Lowered) : Lower ExprId := do
  let l ← left.value
  let r ← right.value
  let lt ← typeOf l
  let rt ← typeOf r
  let invalid : Lower ExprId := fail (.invalidOperands (.operands op lt rt)) span.first
  if lt.isInteger && rt.isInteger then
    let l ← convert l .int
    let r ← convert r .int
    addExpr (.binary op l r) .int span
  else if op.isComparison then
    if lt.isPointer && rt.isPointer then addExpr (.binary op l r) .int span
    else if lt.isPointer && rt.isInteger then
      let r ← convert r lt
      addExpr (.binary op l r) .int span
    else if lt.isInteger && rt.isPointer then
      let l ← convert l rt
      addExpr (.binary op l r) .int span
    else invalid
  else if (op = .add || op = .sub) && lt.isPointer && rt.isInteger then
    let r ← convert r .int
    addExpr (.binary op l r) lt span
  else if op = .add && lt.isInteger && rt.isPointer then
    let l ← convert l .int
    addExpr (.binary op l r) rt span
  else if op = .sub && lt.isPointer && rt.isPointer then addExpr (.binary op l r) .int span
  else invalid

/-- A conjunction or disjunction as a condition: the left operand may decide by itself. -/
def branchLogical (op : LogicalOp) (left right : Lowered) (yes no : BlockId) (kind : BranchKind) :
    Lower Unit := do
  let second ← newBlock
  match op with
  | .and => left.branch second no .logicalAnd
  | .or => left.branch yes second .logicalOr
  setCurrent (some second)
  right.branch yes no kind

/-- A conjunction or disjunction as a value, one or zero. -/
def lowerLogical (span : Span) (op : LogicalOp) (left right : Lowered) : Lower ExprId := do
  let join ← addDetached .join .int span
  let second ← newBlock
  let yes ← newBlock
  let no ← newBlock
  let next ← newBlock
  match op with
  | .and => left.branch second no .logicalAnd
  | .or => left.branch yes second .logicalOr
  setCurrent (some second)
  right.branch yes no .operand
  setCurrent (some yes)
  mergeInto join (.int 1) next
  setCurrent (some no)
  mergeInto join (.int 0) next
  setCurrent (some next)
  pushElement (.expr join false)
  return join

/-- The common type of the two ways of a conditional expression. -/
def joinType? (yes no : CType) : Option CType :=
  if yes.isInteger && no.isInteger then some .int
  else if yes.isPointer then some yes
  else if no.isPointer then some no
  else if yes = no then some yes
  else none

/-- A conditional expression. -/
def lowerConditional (span : Span) (cond yes no : Lowered) : Lower ExprId := do
  let yesBlock ← newBlock
  let noBlock ← newBlock
  let next ← newBlock
  cond.branch yesBlock noBlock .conditional
  setCurrent (some yesBlock)
  let y ← yes.value
  let yesEnd := (← get).current
  setCurrent (some noBlock)
  let n ← no.value
  let noEnd := (← get).current
  let yt ← typeOf y
  let nt ← typeOf n
  match joinType? yt nt with
  | none => fail (.incompatibleTypes nt yt) span.first
  | some type =>
    let join ← addDetached .join type span
    setCurrent yesEnd
    mergeInto join (.expr (← convert y type)) next
    setCurrent noEnd
    mergeInto join (.expr (← convert n type)) next
    setCurrent (some next)
    pushElement (.expr join false)
    return join

/-- An operator on one operand, which starts at `location`. -/
def lowerUnary (span : Span) (op : UnaryOp) (operand : Lowered) (location : Location) :
    Lower ExprId :=
  match op with
  | .neg => do
    let v ← requireInteger (← operand.value)
    addExpr (.unary .neg v) .int span
  | .bitNot => do
    let v ← requireInteger (← operand.value)
    addExpr (.unary .bitNot v) .int span
  | .not => do
    let v ← operand.value
    requireScalar v
    addExpr (.unary .not v) .int span
  | .deref => do
    let v ← operand.value
    let type ← typeOf v
    match type.pointee? with
    | some pointee =>
      if pointee.isVoid then fail (.invalidOperands (.notPointer type)) span.first
      else addExpr (.deref v) pointee span
    | none => fail (.invalidOperands (.notPointer type)) span.first
  | .addrOf => do
    let t ← operand.target location
    addExpr (.addrOf t) (.pointer (← typeOf t)) span
  | .preInc => step true true
  | .preDec => step false true
  | .postInc => step true false
  | .postDec => step false false
where
  step (increment before : Bool) : Lower ExprId := do
    let t ← operand.target location
    requireScalar t
    addExpr (.incDec t increment before) (← typeOf t) span

/-- An assignment, with the operation that it applies to the old value, if any. -/
def lowerAssign (span : Span) (op : Option BinaryOp) (target value : Lowered)
    (location : Location) : Lower ExprId := do
  let t ← target.target location
  let type ← typeOf t
  if type.isArray then fail .notAssignable span.first
  else
    let v ← value.value
    match op with
    | none =>
      let v ← convert v type
      addExpr (.assign t v) type span
    | some op =>
      requireScalar t
      if type.isPointer && !(op = .add || op = .sub) then
        fail (.invalidOperands (.operands op type (← typeOf v))) span.first
      else
        let v ← requireInteger v
        addExpr (.compound op t v) type span

/-- An index into an array or through a pointer; the two operands may be exchanged. -/
def lowerIndex (span : Span) (base index : Lowered) : Lower ExprId := do
  let b ← base.value
  let i ← index.value
  let bt ← typeOf b
  let it ← typeOf i
  let (b, i, bt) := if bt.isInteger && it.isPointer then (i, b, it) else (b, i, bt)
  match bt.pointee? with
  | some element =>
    if element.isVoid then fail (.invalidOperands (.subscripted bt)) span.first
    else
      let i ← requireInteger i
      addExpr (.index b i) element span
  | none => fail (.invalidOperands (.subscripted bt)) span.first

/-- A field of a structure, or through a pointer to one. -/
def lowerMember (span : Span) (base : Lowered) (baseSpan : Span) (field : String) (arrow : Bool) :
    Lower ExprId := do
  let object ← (if arrow then do
      let v ← base.value
      let type ← typeOf v
      match type.pointee? with
      | some (.struct name) => addExpr (.deref v) (.struct name) baseSpan
      | _ => fail (.invalidOperands (.notStructPointer type)) baseSpan.first
    else base.target baseSpan.first : Lower ExprId)
  match ← typeOf object with
  | .struct name =>
    let p := (← get).program
    match p.structNamed? name with
    | none => fail (.unknownStruct name) baseSpan.first
    | some owner =>
      match (p.struct owner).fields.findIdx? (·.name == field) with
      | none => fail (.unknownField name field) span.last
      | some i => addExpr (.member object ⟨owner, i⟩) (p.field ⟨owner, i⟩).type span
  | type => fail (.invalidOperands (.notStruct type)) baseSpan.first

/-- A call of a function. One announced without parameters takes any arguments. -/
def lowerCall (span : Span) (callee : String) (count : Nat)
    (lowerArgs : List CType → Lower (List ExprId)) : Lower ExprId := do
  let f ← resolveFunction callee span.first
  let decl := (← get).program.function f
  let expected := decl.paramTypes.length
  if (expected == 0 && !decl.variadic) || count == expected || (decl.variadic && expected ≤ count)
  then
    let args ← lowerArgs decl.paramTypes
    addExpr (.call f args) decl.returns span
  else fail (.argumentCount callee expected count) span.first

/-- Passes an argument: it takes the type of its parameter, and `char` becomes `int` where there
is none. -/
def passArgument (e : ExprId) (param : Option CType) : Lower ExprId := do
  match param with
  | some type => convert e type
  | none => if (← typeOf e) = .char then convert e .int else return e

/-- Takes back what was built since an earlier state: the expressions and blocks that it did not have,
and the further steps and the end of the block that was current. -/
def Lowering.rollBack (s before : Lowering) : Lowering :=
  let blocks := s.blocks.take before.blocks.size
  let steps (b : BlockId) : Nat := (before.blocks[b.index]?.map (·.elements.size)).getD 0
  { s with
    program := { s.program with exprs := s.program.exprs.take before.program.exprs.size }
    blocks := match before.current with
      | some b => blocks.modify b.index fun block =>
        { block with elements := block.elements.take (steps b), terminator := none }
      | none => blocks
    current := before.current }

/-- The type of an expression that is not evaluated: it is built, and what was built is taken back. -/
def typeOfUnevaluated (x : Lowered) : Lower CType := do
  let before ← get
  let type ← typeOf (← x.place)
  modify fun s => s.rollBack before
  return type

mutual

/-- Both ways of building an expression. -/
def lower (e : Expr) : Lowered :=
  match e with
  | .int span n => .ofPlace span.first (addExpr (.int n) .int span)
  | .char span n => .ofPlace span.first (addExpr (.int n) .int span)
  | .string span s =>
    .ofPlace span.first (addExpr (.string s) (.array .char (some (s.utf8ByteSize + 1))) span)
  | .null span => .ofPlace span.first (addExpr .null (.pointer .void) span)
  | .ident span name => .ofPlace span.first do
    let s ← get
    match lookup? s name with
    | some v => addExpr (.var v) (s.program.var v).type span
    | none => fail (.unknownIdentifier name) span.first
  | .binary span op l r => .ofPlace span.first (lowerBinary span op (lower l) (lower r))
  | .logical span op l r =>
    { place := lowerLogical span op (lower l) (lower r)
      branch := branchLogical op (lower l) (lower r) }
  | .unary span op a => .ofPlace span.first (lowerUnary span op (lower a) a.location)
  | .assign span op t v =>
    .ofPlace span.first (lowerAssign span op (lower t) (lower v) t.location)
  | .conditional span c y n =>
    .ofPlace span.first (lowerConditional span (lower c) (lower y) (lower n))
  | .call span callee args =>
    .ofPlace span.first (lowerCall span callee args.length (lowerArgs args))
  | .index span b i => .ofPlace span.first (lowerIndex span (lower b) (lower i))
  | .member span b field arrow =>
    .ofPlace span.first (lowerMember span (lower b) b.span field arrow)
  | .cast span type a => .ofPlace span.first do
    requireComplete type span.first
    let v ← (lower a).value
    let source ← typeOf v
    if type.isVoid || (source.isScalar && type.isScalar) then addExpr (.cast v) type span
    else fail (.incompatibleTypes source type) span.first
  | .sizeofType span type => .ofPlace span.first do
    requireComplete type span.first
    addExpr (.int ((← get).program.sizeWord type)) .int span
  | .sizeofExpr span a => .ofPlace span.first do
    let type ← typeOfUnevaluated (lower a)
    addExpr (.int ((← get).program.sizeWord type)) .int span

/-- The arguments of a call, given the types of the parameters. -/
def lowerArgs (args : List Expr) (params : List CType) : Lower (List ExprId) :=
  match args with
  | [] => return []
  | a :: rest => do
    let v ← passArgument (← (lower a).value) params.head?
    let more ← lowerArgs rest params.tail
    return v :: more

end

end PathScout
