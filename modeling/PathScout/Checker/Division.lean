import PathScout.Checker.Verdict

/-!
# Divisions by zero

A divisor that must be zero is a defect. Where it may be zero, the division itself shows that it
is not.
-/

namespace PathScout.Division

/-- Division by zero. -/
def zeroType : BugType := ⟨"Division by zero", "Logic error"⟩

/-- Does the operator divide? -/
def divides : BinaryOp → Bool
  | .div | .rem => true
  | _ => false

/-- What an expression divides by. -/
def divisor? (p : Program) (e : ExprId) : Option ExprId :=
  match (p.expr e).op with
  | .binary op _ r => if divides op then some r else none
  | .compound op _ r => if divides op then some r else none
  | _ => none

/-- Looks at a division before it is evaluated. -/
def checkExpr (s : Scene) (c : Catalog) (e : ExprId) : Verdict :=
  match divisor? c.program e with
  | none => .pass
  | some divisor =>
    let value := s.value divisor
    if value.isUnknown || value.isUndefined then .pass
    else
      match s.state.zero? c value with
      | some true =>
        .stop s.state [{
          type := zeroType
          description := zeroType.name
          location := (c.program.expr e).location
          spans := [(c.program.expr divisor).span] }]
      | some false => .pass
      | none =>
        match s.state.assume c value true with
        | some state => .proceed state
        | none => .pass

/-- Looks at divisions. -/
def check (event : Event) (s : Scene) : Naming Verdict :=
  match event with
  | .element (.expr e _) => Naming.query fun c => checkExpr s c e
  | _ => return .pass

end PathScout.Division
