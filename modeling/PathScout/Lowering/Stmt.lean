import PathScout.Lowering.Expr

/-!
# Building declarations and statements

* `completeArray`: an array without a size takes it from what it starts with.
* `lowerDecl`: a local variable; lists are flattened to the parts that they set.
* `lowerStmt`: a statement, by recursion on it. Blocks are numbered in the order in which a
  statement asks for them.
-/

namespace PathScout

open Lower

/-- The type of a variable, where the size of an array may follow from what it starts with. -/
def completeArray (type : CType) (init : Option Initializer) : CType :=
  match type, init with
  | .array element none, some (.list _ items) => .array element (some items.length)
  | .array element none, some (.expr (.string _ s)) => .array element (some (s.utf8ByteSize + 1))
  | type, _ => type

/-- Where a list of initial values starts. -/
def initLocation : List Initializer → Location
  | .expr e :: _ => e.location
  | .list l _ :: _ => l
  | [] => ⟨0, 0⟩

/-- The bytes of a text with their positions. -/
def bytesOf (s : String) : List (Nat × Nat) :=
  (s.toUTF8.toList.map UInt8.toNat).zipIdx

/-- The parts of an aggregate, in order, as far as `count` values reach. -/
def initSlots (p : Program) (type : CType) (count : Nat) : Option (List (CType × InitStep)) :=
  match type with
  | .array element size =>
    let limit := match size with
      | some n => Nat.min n count
      | none => count
    some ((List.range limit).map fun i => (element, .element i))
  | .struct name => do
    let owner ← p.structNamed? name
    return ((p.struct owner).fields.zipIdx).map fun (f, i) => (f.type, .field ⟨owner, i⟩)
  | _ => none

/-- An expression that sets the part at `path`. Texts set the characters of an array; their zero
bytes are what the array has anyway. -/
def lowerInitExpr (type : CType) (e : Expr) (path : List InitStep) : Lower (List InitEntry) := do
  match e, type.element? with
  | .string span s, some .char =>
    (bytesOf s).filter (·.1 != 0) |>.mapM fun (byte, i) => do
      let v ← addExpr (.int byte) .char span
      return ⟨path ++ [.element i], v⟩
  | e, _ =>
    if type.isArray then fail (.invalidOperands .arrayFromExpr) e.location
    else
      let v ← convert (← (lower e).value) type
      return [⟨path, v⟩]

mutual

/-- What sets the part at `path`. -/
def lowerInit (item : Initializer) (type : CType) (path : List InitStep) : Lower (List InitEntry) :=
  match item with
  | .expr e => lowerInitExpr type e path
  | .list _ items => do
    match type with
    | .array .. | .struct _ =>
      match initSlots (← get).program type items.length with
      | some slots => lowerInitSlots items slots path
      | none =>
        match type with
        | .struct name => fail (.unknownStruct name) (initLocation items)
        | _ => return []
    | scalar => lowerInitFirst items scalar path

/-- What sets the parts of an aggregate, one after the other. -/
def lowerInitSlots (items : List Initializer) (slots : List (CType × InitStep))
    (path : List InitStep) : Lower (List InitEntry) :=
  match items, slots with
  | item :: items, (type, step) :: slots => do
    let first ← lowerInit item type (path ++ [step])
    let more ← lowerInitSlots items slots path
    return first ++ more
  | _, _ => return []

/-- A scalar takes the first value of a list. -/
def lowerInitFirst (items : List Initializer) (type : CType) (path : List InitStep) :
    Lower (List InitEntry) :=
  match items with
  | item :: _ => lowerInit item type path
  | [] => return []

end

/-- A local variable. A static one is set up before the program starts. -/
def lowerDecl (decl : VarDecl) : Lower Unit := do
  let type := completeArray decl.type decl.init
  requireComplete type decl.location
  let v ← declareVar decl.name type (if decl.isStatic then .staticLocal else .local) decl.location
  if decl.isStatic then return
  else
    let init ← match decl.init with
      | none => pure none
      | some (.expr e) =>
        if type.isArray then do pure (some (DeclInit.list (← lowerInitExpr type e [])))
        else do pure (some (DeclInit.expr (← convert (← (lower e).value) type)))
      | some (.list l items) => do pure (some (DeclInit.list (← lowerInit (.list l items) type [])))
    pushElement (.decl v init decl.location)

/-- The blocks of the cases of a switch, and what their values and the default lead to. -/
def openCases : List SwitchCase → Lower (List BlockId × List CaseTarget × Option (BlockId × Location))
  | [] => return ([], [], none)
  | (location, value, _) :: rest => do
    let b ← newBlock
    match value with
    | some label =>
      match label.constant? with
      | none => fail .nonConstant label.location
      | some n =>
        let (blocks, targets, default) ← openCases rest
        return (b :: blocks, ⟨n, b, location⟩ :: targets, default)
    | none =>
      let (blocks, targets, default) ← openCases rest
      return (b :: blocks, targets, default.or (some (b, location)))

/-- The head of a switch: its value, its cases and the block behind it. -/
def lowerSwitchHead (location : Location) (cond : Expr) (cases : List SwitchCase) :
    Lower (BlockId × List BlockId) := do
  let v ← (lower cond).value
  let type ← typeOf v
  if !type.isInteger then fail (.invalidOperands (.switchOn type)) cond.location
  else
    let v ← convert v .int
    let exit ← newBlock
    let (blocks, targets, default) ← openCases cases
    terminate (.switch v targets ((default.map (·.1)).getD exit) (default.map (·.2)) location)
    return (exit, blocks)

/-- The condition of a `for`; a missing one is always true. -/
def lowerForCondition (location : Location) (cond : Option Expr) (body exit : BlockId) : Lower Unit :=
  match cond with
  | some c => (lower c).branch body exit (.loop .for)
  | none => do
    let always ← addExpr (.int 1) .int (.point location)
    terminate (.branch always body exit (.loop .for) location)

/-- A value that is computed for its effects only. -/
def lowerEffect (e : Expr) : Lower Unit := do
  let _ ← (lower e).value
  markRoot

/-- A return; the value of a `void` function is computed and dropped. -/
def lowerReturn (location : Location) (value : Option Expr) : Lower Unit := do
  let s ← get
  let v ← match value with
    | none => pure none
    | some e => do
      let v ← (lower e).value
      if s.returns.isVoid then pure none else pure (some (← convert v s.returns))
  pushElement (.return v location)
  jump ⟨1⟩ .return

/-- A jump to a label. If the label stands before it, the jump closes a loop. -/
def lowerGoto (location : Location) (label : String) : Lower Unit := do
  let target ← labelBlock label location
  match (← get).labels.lookup label with
  | some info => if info.isDefined then markLoopHead target
  | none => pure ()
  jump target .goto

/-- A label. -/
def lowerLabel (location : Location) (name : String) : Lower Unit := do
  let target ← labelBlock name location
  match (← get).labels.lookup name with
  | some info =>
    if info.isDefined then fail (.redefinition name) location
    else modify fun s =>
      { s with labels := s.labels.map fun (n, i) =>
          if n = name then (n, { i with isDefined := true }) else (n, i) }
  | none => pure ()
  jumpIfOpen target
  setCurrent (some target)

mutual

/-- Builds a statement. -/
def lowerStmt (s : Stmt) : Lower Unit :=
  match s with
  | .empty _ => return
  | .expr _ e => lowerEffect e
  | .decl _ decls => decls.forM lowerDecl
  | .block _ body => inScope (lowerStmts body)
  | .ifThen _ cond yes no => do
    let yesBlock ← newBlock
    let next ← newBlock
    let noBlock ← match no with
      | some _ => newBlock
      | none => pure next
    (lower cond).branch yesBlock noBlock .if
    setCurrent (some yesBlock)
    lowerStmt yes
    jumpIfOpen next
    lowerElse no noBlock next
    setCurrent (some next)
  | .whileDo _ cond body => do
    let head ← newBlock
    let bodyBlock ← newBlock
    let exit ← newBlock
    markLoopHead head
    jump head .fallthrough
    setCurrent (some head)
    (lower cond).branch bodyBlock exit (.loop .while)
    setCurrent (some bodyBlock)
    inTargets ⟨exit, some head⟩ (lowerStmt body)
    jumpIfOpen head
    setCurrent (some exit)
  | .doWhile _ body cond => do
    let bodyBlock ← newBlock
    let condBlock ← newBlock
    let exit ← newBlock
    markLoopHead condBlock
    jump bodyBlock .fallthrough
    setCurrent (some bodyBlock)
    inTargets ⟨exit, some condBlock⟩ (lowerStmt body)
    jumpIfOpen condBlock
    setCurrent (some condBlock)
    (lower cond).branch bodyBlock exit (.loop .doWhile)
    setCurrent (some exit)
  | .forDo location init cond step body => inScope do
    lowerOptional init
    let head ← newBlock
    let bodyBlock ← newBlock
    let stepBlock ← newBlock
    let exit ← newBlock
    markLoopHead head
    jump head .fallthrough
    setCurrent (some head)
    lowerForCondition location cond bodyBlock exit
    setCurrent (some bodyBlock)
    inTargets ⟨exit, some stepBlock⟩ (lowerStmt body)
    jumpIfOpen stepBlock
    setCurrent (some stepBlock)
    step.forM lowerEffect
    jump head .fallthrough
    setCurrent (some exit)
  | .switch location cond cases => do
    let (exit, blocks) ← lowerSwitchHead location cond cases
    inTargets ⟨exit, none⟩ (lowerCases cases blocks)
    jumpIfOpen exit
    setCurrent (some exit)
  | .break location => do
    match (← get).targets.head? with
    | some t => jump t.breakTo .break
    | none => fail (.misplacedJump "break") location
  | .continue location => do
    match (← get).targets.findSome? (·.continueTo) with
    | some target => jump target .continue
    | none => fail (.misplacedJump "continue") location
  | .return location value => lowerReturn location value
  | .goto location label => lowerGoto location label
  | .label location name => lowerLabel location name

/-- Builds statements one after the other. -/
def lowerStmts (body : List Stmt) : Lower Unit :=
  match body with
  | [] => return
  | s :: rest => do
    lowerStmt s
    lowerStmts rest

/-- Builds a statement that may be missing. -/
def lowerOptional (s : Option Stmt) : Lower Unit :=
  match s with
  | some s => lowerStmt s
  | none => return

/-- Builds the other way of an `if`, in a block of its own. -/
def lowerElse (no : Option Stmt) (noBlock next : BlockId) : Lower Unit :=
  match no with
  | some s => do
    setCurrent (some noBlock)
    lowerStmt s
    jumpIfOpen next
  | none => return

/-- Builds the cases of a switch; each falls through to the next. -/
def lowerCases (cases : List (Location × Option Expr × List Stmt)) (blocks : List BlockId) :
    Lower Unit :=
  match cases, blocks with
  | (_, _, body) :: cases, b :: blocks => do
    jumpIfOpen b
    setCurrent (some b)
    lowerStmts body
    lowerCases cases blocks
  | _, _ => return

end

end PathScout
