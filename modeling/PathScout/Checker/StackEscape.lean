import PathScout.Checker.Verdict

/-!
# Addresses that outlive their frame

An address in the current frame must not be returned, and no global variable may hold one when the
function ends.
-/

namespace PathScout.StackEscape

/-- An address of the frame is returned. -/
def returnedType : BugType := ⟨"Return of address to stack-allocated memory", "Logic error"⟩

/-- An address of the frame stays in a global variable. -/
def storedType : BugType := ⟨"Stack address stored into global variable", "Logic error"⟩

/-- Memory of a frame in words. -/
def describe? (c : Catalog) (frame : FrameId) (r : RegionId) : Option String :=
  if c.stackFrame? r = some frame then
    some (match c.region (c.base r) with
      | .var v _ =>
        let var := c.program.var v
        let kind := if var.isParam then "parameter" else "local variable"
        "stack memory associated with " ++ kind ++ " '" ++ var.name ++ "'"
      | .alloca e _ _ =>
        "stack memory allocated by call to alloca() on line " ++
          toString (c.program.expr e).location.line
      | _ => "stack memory")
  else none

/-- Looks at a value that is returned. -/
def checkReturn (s : Scene) (c : Catalog) (value : ExprId) (location : Location) : Verdict :=
  match (s.value value).region?.bind (describe? c s.point.frame) with
  | some memory =>
    .stop s.state [{
      type := returnedType
      description := "Address of " ++ memory ++ " returned to caller"
      location := location
      spans := [(c.program.expr value).span] }]
  | none => .pass

/-- The addresses of the frame that global variables hold, with the names of these. -/
def escapes (s : Scene) (c : Catalog) : List (String × String) :=
  s.state.store.bindings.entries.filterMap fun (key, value) =>
    if c.hasGlobalStorage key.region then do
      let memory ← describe? c s.point.frame (← value.region?)
      return (memory, ← c.describe? key.region)
    else none

/-- Looks at the global variables when the function ends. -/
def checkEnd (s : Scene) (c : Catalog) : Verdict :=
  match escapes s c with
  | [] => .pass
  | found =>
    let location := ((c.program.span? s.frames s.point).map (·.first)).getD .nowhere
    .report s.state (found.map fun (memory, name) => {
      type := storedType
      description := "Address of " ++ memory ++ " is still referred to by the global variable '" ++
        name ++ "' upon returning to the caller.  This will be a dangling reference"
      location := location })

/-- Looks at returns and at the end of functions. -/
def check (event : Event) (s : Scene) : Naming Verdict :=
  match event with
  | .element (.return (some value) location) =>
    Naming.query fun c => checkReturn s c value location
  | .functionEnds => Naming.query (checkEnd s)
  | _ => return .pass

end PathScout.StackEscape
