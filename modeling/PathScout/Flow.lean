import PathScout.CType
import PathScout.Operator
import PathScout.Source

/-!
# Typed expressions and flow graphs

Expressions of all functions are kept in one table and named by their number. Every conversion is
an expression of its own: `load` reads a place, `decay` turns an array into a pointer, `cast`
changes between scalar types.

* `TypedExpr`: an operation on other expressions, with its type and span.
* `Element`: one step of a block, in the order of evaluation.
* `Terminator`: how a block ends. `Block`, `FlowGraph`: the blocks of a function.
-/

namespace PathScout

/-- The number of an expression. -/
structure ExprId where
  index : Nat
deriving DecidableEq, Hashable, Inhabited

/-- The number of a variable. -/
structure VarId where
  index : Nat
deriving DecidableEq, Hashable, Inhabited

/-- The number of a function. -/
structure FunctionId where
  index : Nat
deriving DecidableEq, Hashable, Inhabited

/-- The number of a structure. -/
structure StructId where
  index : Nat
deriving DecidableEq, Hashable, Inhabited

/-- The number of a block in its function. -/
structure BlockId where
  index : Nat
deriving DecidableEq, Hashable, Inhabited

/-- A field of a structure, by its position. -/
structure FieldId where
  owner : StructId
  index : Nat
deriving DecidableEq, Hashable

/-- How a block is written. -/
def BlockId.text (b : BlockId) : String := s!"B{b.index}"

/-- Operators on one value. -/
inductive ValueOp where
  | neg | bitNot | not
deriving DecidableEq, Hashable

/-- What an expression does with its operands. -/
inductive Operation where
  | int (value : Int)
  | string (content : String)
  | null
  | var (var : VarId)
  | load (place : ExprId)
  | decay (place : ExprId)
  | addrOf (place : ExprId)
  | deref (pointer : ExprId)
  | unary (op : ValueOp) (operand : ExprId)
  | binary (op : BinaryOp) (left right : ExprId)
  | assign (target value : ExprId)
  | compound (op : BinaryOp) (target value : ExprId)
  | incDec (target : ExprId) (increment before : Bool)
  | call (callee : FunctionId) (args : List ExprId)
  | member (base : ExprId) (field : FieldId)
  | index (base index : ExprId)
  | cast (operand : ExprId)
  | join
deriving DecidableEq, Inhabited

/-- The operands of an operation, in the order of evaluation. -/
def Operation.operands : Operation → List ExprId
  | int _ | string _ | null | var _ | join => []
  | load e | decay e | addrOf e | deref e | unary _ e | cast e | member e _ | incDec e _ _ => [e]
  | binary _ l r => [l, r]
  | assign t v | compound _ t v => [t, v]
  | index b i => [b, i]
  | call _ args => args

/-- Does the operation name a place rather than a value? -/
def Operation.isPlace : Operation → Bool
  | var _ | deref _ | member _ _ | index _ _ | string _ => true
  | _ => false

/-- An expression with its type and the span it covers. -/
structure TypedExpr where
  op : Operation
  type : CType
  span : Span
deriving DecidableEq, Inhabited

/-- Where an expression starts. -/
def TypedExpr.location (e : TypedExpr) : Location := e.span.first

/-- A step from an aggregate to one of its parts. -/
inductive InitStep where
  | element (index : Nat)
  | field (field : FieldId)
deriving DecidableEq

/-- One part of an aggregate and the value it starts with. -/
structure InitEntry where
  path : List InitStep
  value : ExprId
deriving DecidableEq

/-- What a local variable starts with. -/
inductive DeclInit where
  | expr (value : ExprId)
  | list (entries : List InitEntry)
deriving DecidableEq

/-- What a joined expression is on one of its ways. -/
inductive MergeValue where
  | int (value : Int)
  | expr (value : ExprId)
deriving DecidableEq

/-- One step of a block. An expression may be the root of a statement: then no value computed
before is needed any more. -/
inductive Element where
  | expr (e : ExprId) (root : Bool)
  | decl (var : VarId) (init : Option DeclInit) (location : Location)
  | merge (target : ExprId) (value : MergeValue)
  | return (value : Option ExprId) (location : Location)
deriving DecidableEq

/-- Does the step end a statement? -/
def Element.isRoot : Element → Bool
  | expr _ root => root
  | decl .. | .return .. => true
  | merge .. => false

/-- The kinds of loop. -/
inductive LoopKind where
  | while | doWhile | for
deriving DecidableEq

/-- Where a two-way branch comes from. -/
inductive BranchKind where
  | if
  | loop (kind : LoopKind)
  | logicalAnd
  | logicalOr
  | conditional
  | operand
deriving DecidableEq

/-- Where a jump comes from. -/
inductive JumpKind where
  | fallthrough | goto | break | continue | return
deriving DecidableEq

/-- A case of a switch. -/
structure CaseTarget where
  value : Int
  block : BlockId
  location : Location
deriving DecidableEq

/-- How a block ends. -/
inductive Terminator where
  | goto (target : BlockId) (kind : JumpKind)
  | branch (cond : ExprId) (yes no : BlockId) (kind : BranchKind) (location : Location)
  | switch (cond : ExprId) (cases : List CaseTarget) (default : BlockId)
      (defaultLocation : Option Location) (location : Location)
  | exit
deriving DecidableEq

/-- The blocks that may follow. -/
def Terminator.successors : Terminator → List BlockId
  | goto target _ => [target]
  | branch _ yes no _ _ => [yes, no]
  | switch _ cases default _ _ => cases.map (·.block) ++ [default]
  | exit => []

/-- A block: steps without branches, and an end. -/
structure Block where
  elements : Array Element
  terminator : Terminator
  loopHead : Bool

/-- The blocks of a function. -/
structure FlowGraph where
  blocks : Array Block
  entry : BlockId
  exit : BlockId

namespace FlowGraph

/-- The block with the given number. -/
def block? (g : FlowGraph) (b : BlockId) : Option Block := g.blocks[b.index]?

/-- The blocks that may precede a block, in order. -/
def predecessors (g : FlowGraph) (b : BlockId) : List BlockId :=
  (List.range g.blocks.size).filterMap fun i =>
    match g.blocks[i]? with
    | some block => if block.terminator.successors.contains b then some ⟨i⟩ else none
    | none => none

end FlowGraph

end PathScout
