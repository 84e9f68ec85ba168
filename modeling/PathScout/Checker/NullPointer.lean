import PathScout.Checker.Verdict

/-!
# Accesses through null pointers

A place that must be null is not accessible, nor is one that is undefined. Where it may be null,
the access itself shows that it is not.
-/

namespace PathScout.NullPointer

/-- Access through a pointer that is null. -/
def nullType : BugType := ⟨"Dereference of null pointer", "Logic error"⟩

/-- Access through a pointer without a value. -/
def undefinedType : BugType := ⟨"Dereference of undefined pointer value", "Logic error"⟩

/-- The variable that a pointer was read from, below at most `depth` casts. -/
def loadedVarTo (p : Program) : (depth : Nat) → ExprId → Option VarId
  | 0, _ => none
  | depth + 1, e =>
    match (p.expr e).op with
    | .cast a => loadedVarTo p depth a
    | .load place =>
      match (p.expr place).op with
      | .var v => some v
      | _ => none
    | _ => none

/-- The variable that a value was read from, below any casts. -/
def loadedVar? (p : Program) (e : ExprId) : Option VarId := loadedVarTo p (p.exprs.size + 1) e

/-- The pointer that a place is reached through. -/
def pointerOf? (p : Program) (place : ExprId) : Option ExprId :=
  match (p.expr place).op with
  | .deref pointer => some pointer
  | .index base _ => some base
  | .member base _ =>
    match (p.expr base).op with
    | .deref pointer => some pointer
    | _ => none
  | _ => none

/-- The description of an access through a null pointer, which may come from a variable. -/
def message (p : Program) (place : ExprId) (var : Option String) : String :=
  match (p.expr place).op, var with
  | .index .., some name =>
    "Array access (from variable '" ++ name ++ "') results in a null pointer dereference"
  | .index .., none => "Array access results in a null pointer dereference"
  | .member _ field, some name =>
    "Access to field '" ++ (p.field field).name ++
      "' results in a dereference of a null pointer (loaded from variable '" ++ name ++ "')"
  | .member _ field, none =>
    "Access to field '" ++ (p.field field).name ++
      "' results in a dereference of a null pointer"
  | _, some name => "Dereference of null pointer (loaded from variable '" ++ name ++ "')"
  | _, none => "Dereference of null pointer"

/-- The finding of a defective access. The history of the variable that held the pointer explains
it. -/
def finding (type : BugType) (description : String) (place : ExprId) (frame : FrameId) :
    Naming Finding := do
  let program ← Naming.query (·.program)
  let pointer := pointerOf? program place
  let regions ← match pointer.bind (loadedVar? program) with
    | some v => pure [← Naming.var v frame]
    | none => pure []
  return {
    type := type
    description := description
    location := (program.expr place).location
    spans := (pointer.map fun e => (program.expr e).span).toList
    regions := regions }

/-- Looks at an access. -/
def check (event : Event) (s : Scene) : Naming Verdict := do
  match event with
  | .access location place =>
    if location.isUndefined then
      let f ← finding undefinedType undefinedType.name place s.point.frame
      return .stop s.state [f]
    else if location.loc?.isNone then return .pass
    else
      let (nonNull, null) ← Naming.query fun c =>
        (s.state.assume c location true, s.state.assume c location false)
      match nonNull, null with
      | some state, _ => return .proceed state
      | none, some state =>
        let description ← Naming.query fun c =>
          let var := (pointerOf? c.program place).bind (loadedVar? c.program)
          message c.program place (var.map fun v => (c.program.var v).name)
        return .stop state [← finding nullType description place s.point.frame]
      | none, none => return .pass
  | _ => return .pass

end PathScout.NullPointer
