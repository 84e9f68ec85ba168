import PathScout.Checker.NullPointer

/-!
# Uses of garbage

A value that was never set may be copied around in memory, but it must not be computed with,
stored, returned, passed or branched on.
-/

namespace PathScout.Garbage

/-- Branches on garbage. -/
def branchType : BugType := ⟨"Branch condition evaluates to a garbage value", "Logic error"⟩

/-- Operations on garbage. -/
def operationType : BugType := ⟨"Result of operation is garbage or undefined", "Logic error"⟩

/-- Stores of garbage. -/
def assignmentType : BugType := ⟨"Assigned value is garbage or undefined", "Logic error"⟩

/-- Returns of garbage. -/
def returnType : BugType := ⟨"Garbage return value", "Logic error"⟩

/-- Garbage as an argument. -/
def argumentType : BugType := ⟨"Uninitialized argument value", "Logic error"⟩

/-- A position in words. -/
def ordinal (n : Nat) : String :=
  let suffix :=
    if 11 ≤ n % 100 ∧ n % 100 ≤ 13 then "th"
    else match n % 10 with
      | 1 => "st"
      | 2 => "nd"
      | 3 => "rd"
      | _ => "th"
  toString n ++ suffix

/-- Ends the path with a finding. The history of the variable that the culprit was read from
explains it. -/
def stop (s : Scene) (type : BugType) (description : String) (location : Location)
    (culprit : Option ExprId) : Naming Verdict := do
  let program ← Naming.query (·.program)
  let regions ← match culprit.bind (NullPointer.loadedVar? program) with
    | some v => pure [← Naming.var v s.point.frame]
    | none => pure []
  return .stop s.state [{
    type := type
    description := description
    location := location
    spans := (culprit.map fun e => (program.expr e).span).toList
    regions := regions }]

/-- Does the place that an expression stands for hold garbage? -/
def holdsGarbage (s : Scene) (place : ExprId) : Naming Bool := do
  match (s.value place).loc? with
  | some l =>
    let type ← Naming.query fun c => (c.program.expr place).type
    return (← s.policy.retrieve s.state.store l type).isUndefined
  | none => return false

/-- The operand of a binary operation that is garbage, and its side. -/
def garbageOperand? (s : Scene) (l r : ExprId) : Option (String × ExprId) :=
  if (s.value l).isUndefined then some ("left", l)
  else if (s.value r).isUndefined then some ("right", r)
  else none

/-- Looks at an expression before it is evaluated. -/
def checkExpr (s : Scene) (e : ExprId) : Naming Verdict := do
  let expr ← Naming.query fun c => c.program.expr e
  match expr.op with
  | .binary op l r =>
    match garbageOperand? s l r with
    | some (side, operand) =>
      stop s operationType
        ("The " ++ side ++ " operand of '" ++ op.symbol ++ "' is a garbage value") expr.location
        (some operand)
    | none => return .pass
  | .compound _ target _ =>
    if ← holdsGarbage s target then
      stop s operationType ("The left expression of the compound assignment is an uninitialized " ++
        "value. The computed value will also be garbage") expr.location none
    else return .pass
  | .incDec target _ _ =>
    if ← holdsGarbage s target then
      stop s operationType
        "The expression is an uninitialized value. The computed value will also be garbage"
        expr.location none
    else return .pass
  | _ => return .pass

/-- Looks at uses of values. -/
def check (event : Event) (s : Scene) : Naming Verdict := do
  match event with
  | .element (.expr e _) => checkExpr s e
  | .element (.return (some e) location) =>
    if (s.value e).isUndefined then
      stop s returnType "Undefined or garbage value returned to caller" location (some e)
    else return .pass
  | .callBegins call =>
    match call.args.findIdx? (·.isUndefined) with
    | some i =>
      let argument := call.argExprs[i]?.getD default
      let location ← Naming.query fun c => (c.program.expr argument).location
      stop s argumentType (ordinal (i + 1) ++ " function call argument is an uninitialized value")
        location (some argument)
    | none => return .pass
  | .write _ value span =>
    if value.isUndefined then
      return .stop s.state [{
        type := assignmentType
        description := assignmentType.name
        location := span.first
        spans := [span] }]
    else return .pass
  | .condition cond =>
    if (s.value cond).isUndefined then
      let location ← Naming.query fun c => (c.program.expr cond).location
      stop s branchType branchType.name location (some cond)
    else return .pass
  | _ => return .pass

end PathScout.Garbage
