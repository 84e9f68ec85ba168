import PathScout.CType
import PathScout.Operator
import PathScout.Source
import PathScout.Word

/-!
# Trees of a source text

* `Expr`, `Stmt`: expressions with the span they cover and statements with the place they start.
* `Item`: a structure, a global variable or a function.
* `SourceUnit`: everything read from one text.
* `Expr.constant?`: the value of an expression made of literals.
-/

namespace PathScout

/-- An expression as written, with the span it covers. Parentheses only widen the span. -/
inductive Expr where
  | int (span : Span) (value : Int)
  | char (span : Span) (value : Int)
  | string (span : Span) (content : String)
  | null (span : Span)
  | ident (span : Span) (name : String)
  | binary (span : Span) (op : BinaryOp) (left right : Expr)
  | logical (span : Span) (op : LogicalOp) (left right : Expr)
  | unary (span : Span) (op : UnaryOp) (operand : Expr)
  | assign (span : Span) (op : Option BinaryOp) (target value : Expr)
  | conditional (span : Span) (cond yes no : Expr)
  | call (span : Span) (callee : String) (args : List Expr)
  | index (span : Span) (base index : Expr)
  | member (span : Span) (base : Expr) (field : String) (arrow : Bool)
  | cast (span : Span) (type : CType) (operand : Expr)
  | sizeofType (span : Span) (type : CType)
  | sizeofExpr (span : Span) (operand : Expr)

namespace Expr

/-- The span that an expression covers. -/
def span : Expr → Span
  | int s _ | char s _ | string s _ | null s | ident s _ | binary s _ _ _ | logical s _ _ _
  | unary s _ _ | assign s _ _ _ | conditional s _ _ _ | call s _ _ | index s _ _
  | member s _ _ _ | cast s _ _ | sizeofType s _ | sizeofExpr s _ => s

/-- The same expression with another span. -/
def withSpan (s : Span) : Expr → Expr
  | int _ n => int s n
  | char _ n => char s n
  | string _ t => string s t
  | null _ => null s
  | ident _ x => ident s x
  | binary _ op l r => binary s op l r
  | logical _ op l r => logical s op l r
  | unary _ op e => unary s op e
  | assign _ op t v => assign s op t v
  | conditional _ c t e => conditional s c t e
  | call _ f args => call s f args
  | index _ b i => index s b i
  | member _ b f a => member s b f a
  | cast _ t e => cast s t e
  | sizeofType _ t => sizeofType s t
  | sizeofExpr _ e => sizeofExpr s e

/-- Where an expression starts. -/
def location (e : Expr) : Location := e.span.first

/-- The value of an operator on two constants, if it is a word. Shift distances are below 64. -/
def constantBinary? (op : BinaryOp) (l r : Int) : Option Int :=
  match op with
  | .add => Word.ofInt? (l + r)
  | .sub => Word.ofInt? (l - r)
  | .mul => Word.ofInt? (l * r)
  | .div => if r = 0 then none else Word.ofInt? (l.tdiv r)
  | .rem => if r = 0 ∨ (l = Word.min ∧ r = -1) then none else some (l.tmod r)
  | .shl => if 0 ≤ r ∧ r < 64 then some (Word.shl l r.toNat) else none
  | .shr => if 0 ≤ r ∧ r < 64 then some (Word.shr l r.toNat) else none
  | .bitAnd => some (Word.land l r)
  | .bitOr => some (Word.lor l r)
  | .bitXor => some (Word.lxor l r)
  | .eq => some (Word.ofBool (l == r))
  | .ne => some (Word.ofBool (l != r))
  | .lt => some (Word.ofBool (l < r))
  | .le => some (Word.ofBool (l ≤ r))
  | .gt => some (Word.ofBool (l > r))
  | .ge => some (Word.ofBool (l ≥ r))

/-- The value of an expression made of integer and character literals, sign, complement and
binary operators. -/
def constant? : Expr → Option Int
  | int _ n => some n
  | char _ n => some n
  | unary _ .neg e => do Word.ofInt? (-(← e.constant?))
  | unary _ .bitNot e => do some (Word.lnot (← e.constant?))
  | binary _ op l r => do constantBinary? op (← l.constant?) (← r.constant?)
  | _ => none

end Expr

/-- What a variable starts with: an expression, or a bracketed list. -/
inductive Initializer where
  | expr (value : Expr)
  | list (location : Location) (elements : List Initializer)

/-- A declared variable. -/
structure VarDecl where
  name : String
  type : CType
  init : Option Initializer
  isStatic : Bool
  location : Location

/-- A statement and the place where it starts. The cases of a switch are a value, absent for the
default case, with the statements up to the next case. -/
inductive Stmt where
  | decl (location : Location) (decls : List VarDecl)
  | expr (location : Location) (value : Expr)
  | block (location : Location) (body : List Stmt)
  | ifThen (location : Location) (cond : Expr) (yes : Stmt) (no : Option Stmt)
  | whileDo (location : Location) (cond : Expr) (body : Stmt)
  | doWhile (location : Location) (body : Stmt) (cond : Expr)
  | forDo (location : Location) (init : Option Stmt) (cond step : Option Expr) (body : Stmt)
  | switch (location : Location) (cond : Expr) (cases : List (Location × Option Expr × List Stmt))
  | break (location : Location)
  | continue (location : Location)
  | return (location : Location) (value : Option Expr)
  | goto (location : Location) (label : String)
  | label (location : Location) (name : String)
  | empty (location : Location)

/-- One case of a switch. -/
abbrev SwitchCase := Location × Option Expr × List Stmt

/-- A parameter of a function. -/
structure Param where
  name : Option String
  type : CType
  location : Location

/-- A function with its body, or only announced. -/
structure FunctionDecl where
  name : String
  returns : CType
  params : List Param
  variadic : Bool
  body : Option (List Stmt)
  location : Location
  last : Location

/-- A field of a structure. -/
structure FieldDecl where
  name : String
  type : CType
  location : Location

/-- A structure with its fields. -/
structure StructDecl where
  name : String
  fields : List FieldDecl
  location : Location

/-- What stands at the top of a source text. -/
inductive Item where
  | function (decl : FunctionDecl)
  | struct (decl : StructDecl)
  | global (decl : VarDecl)

/-- Everything read from one source text. -/
structure SourceUnit where
  items : List Item
  expansions : List Expansion

/-- The functions of a text, in order. -/
def SourceUnit.functions (u : SourceUnit) : List FunctionDecl :=
  u.items.filterMap fun
    | .function f => some f
    | _ => none

end PathScout
