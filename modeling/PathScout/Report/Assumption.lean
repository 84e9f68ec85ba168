import PathScout.Program

/-!
# Assumptions in words

* `Program.assumption`: what taking one way of a branch assumes, in the words of the source.
-/

namespace PathScout

namespace Program

/-- The operand below the casts, at most `depth` of them. -/
def stripCastsTo (p : Program) : (depth : Nat) → ExprId → ExprId
  | 0, e => e
  | depth + 1, e =>
    match (p.expr e).op with
    | .cast a => stripCastsTo p depth a
    | _ => e

/-- The operand below the casts. -/
def stripCasts (p : Program) (e : ExprId) : ExprId := stripCastsTo p p.exprs.size e

/-- Is the expression a null pointer or a literal zero? -/
def isNullConstant (p : Program) (e : ExprId) : Bool :=
  match (p.expr (p.stripCasts e)).op with
  | .null | .int 0 => true
  | _ => false

/-- An assumption about a pointer. -/
def pointerAssumption (name : Option String) (nonNull : Bool) : String :=
  let outcome := if nonNull then "non-null" else "null"
  match name with
  | some name => "Assuming '" ++ name ++ "' is " ++ outcome
  | none => "Assuming pointer value is " ++ outcome

/-- An assumption about a condition that has no name. -/
def plainAssumption (taken : Bool) : String :=
  "Assuming the condition is " ++ (if taken then "true" else "false")

/-- An assumption about the outcome of a comparison. -/
def comparisonAssumption (p : Program) (op : BinaryOp) (l r : ExprId) (taken : Bool) : String :=
  match if taken then some op else op.negated? with
  | none => plainAssumption taken
  | some op =>
    if (p.expr l).type.isPointer && p.isNullConstant r && (op = .eq || op = .ne) then
      pointerAssumption (p.describe? l) (op = .ne)
    else
      match p.describe? l, p.describe? r with
      | some name, some value =>
        let relation := match op with
          | .eq => "equal to"
          | .ne => "not equal to"
          | op => op.symbol
        "Assuming '" ++ name ++ "' is " ++ relation ++ " " ++ value
      | _, _ => plainAssumption taken

/-- What a branch assumes, passing at most `depth` negations. -/
def assumptionTo (p : Program) : (depth : Nat) → ExprId → Bool → String
  | 0, _, taken => plainAssumption taken
  | depth + 1, e, taken =>
    let cond := p.stripCasts e
    let expr := p.expr cond
    let byName : String :=
      if expr.type.isPointer then pointerAssumption (p.describe? cond) taken
      else match p.describe? cond with
        | some name =>
          if taken then "Assuming '" ++ name ++ "' is not equal to 0"
          else "Assuming '" ++ name ++ "' is 0"
        | none => plainAssumption taken
    match expr.op with
    | .unary .not a => assumptionTo p depth a (!taken)
    | .binary op l r => if op.isComparison then p.comparisonAssumption op l r taken else byName
    | _ => byName

/-- What taking a branch on `cond` one way assumes. -/
def assumption (p : Program) (cond : ExprId) (taken : Bool) : String :=
  assumptionTo p (p.exprs.size + 1) cond taken

end Program

end PathScout
