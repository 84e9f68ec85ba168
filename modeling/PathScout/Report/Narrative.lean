import PathScout.Exploration
import PathScout.Report.Assumption
import PathScout.Report.Diagnostic
import PathScout.Report.ShortestPath

/-!
# Telling a path

A path is told from its end: every step back may add a jump, events, and the boundary of a call.

* `Exploration.controlPiece?`: the jump that a step makes.
* `Exploration.allocationEvent?`, `Exploration.assumptionEvent?`, `Exploration.storeEvent?`: events
  about allocated memory, about assumptions, and about the variables that explain a defect.
* `groupExpansions`: gathers what happens at uses of defined names.
* `Exploration.diagnostics`: one diagnostic for each issue, along the shortest path to it.
-/

namespace PathScout

namespace Exploration

/-- The program that is explored. -/
def program (e : Exploration) : Program := e.catalog.program

/-- The piece of source that a node belongs to. -/
def nodeSpan? (e : Exploration) (n : NodeId) : Option Span :=
  e.program.span? e.frames (e.graph.point n)

/-- The name of the function that runs in a frame. -/
def functionName? (e : Exploration) (f : FrameId) : Option String :=
  (e.program.functionIn? e.frames f).map (·.name)

/-! ### Jumps -/

/-- What a branch says when it is taken one way. -/
def branchMessage (kind : BranchKind) (taken : Bool) (line : Nat) : String :=
  let outcome := if taken then "true" else "false"
  match kind with
  | .if => "Taking " ++ outcome ++ " branch"
  | .loop kind =>
    if taken then
      if kind = .doWhile then
        "Loop condition is true.  Execution continues on line " ++ toString line
      else "Loop condition is true.  Entering loop body"
    else "Loop condition is false.  Execution continues on line " ++ toString line
  | .logicalAnd => "Left side of '&&' is " ++ outcome
  | .logicalOr => "Left side of '||' is " ++ outcome
  | .conditional => "'?' condition is " ++ outcome
  | .operand => ""

/-- What the end of a block says when the path goes on in another block, which starts on a line. -/
def jumpMessage? (t : Terminator) (target : BlockId) (line : Nat) : Option String :=
  match t with
  | .branch _ yes _ kind _ => some (branchMessage kind (target == yes) line)
  | .switch _ cases default label _ =>
    match cases.find? fun c => c.block == target with
    | some c =>
      some ("Control jumps to 'case " ++ toString c.value ++ ":' at line " ++
        toString c.location.line)
    | none =>
      if target = default then
        match label with
        | some l => some ("Control jumps to the 'default' case at line " ++ toString l.line)
        | none => some ("'Default' branch taken. Execution continues on line " ++ toString line)
      else some ""
  | .goto _ kind =>
    match kind with
    | .goto | .break | .continue => some ("Control jumps to line " ++ toString line)
    | .fallthrough | .return => some ""
  | .exit => none

/-- The jump that a step to a node makes. -/
def controlPiece? (e : Exploration) (scheme : PathScheme) (n : NodeId) : Option PathPiece := do
  let point := e.graph.point n
  match point.kind with
  | .edge source target =>
    let function ← e.program.functionIn? e.frames point.frame
    let graph := (← function.body).graph
    let source ← graph.block? source
    let block ← graph.block? target
    let stop := (e.program.startSpan? block).getD (.point function.last)
    let last := source.elements.back?.map e.program.elementSpan
    let start := (e.program.terminatorSpan? source <|> last).getD stop
    let message ← jumpMessage? source.terminator target stop.first.line
    if message.isEmpty && scheme = .minimal then none
    else return .control [⟨start, stop⟩] message
  | _ => none

/-! ### Events -/

/-- What a change of allocated memory is called. -/
def allocationMessage? : Option AllocationKind → AllocationKind → Option String
  | none, .allocated => some "Memory is allocated"
  | some .allocated, .released | some .escaped, .released => some "Memory is released"
  | _, _ => none

/-- What becomes of allocated memory in a step. -/
def allocationEvent? (e : Exploration) (symbol : Option SymbolId) (pred succ : NodeId) :
    Option EventPiece := do
  let sym ← symbol
  let after ← (e.graph.state succ).heap.get? sym
  let before := (e.graph.state pred).heap.get? sym
  let message ← allocationMessage? (before.map (·.kind)) after.kind
  let span ← e.nodeSpan? succ
  return ⟨span.first, message, [span]⟩

/-- What a branch assumes in a step, if it assumes something new. -/
def assumptionEvent? (e : Exploration) (pred succ : NodeId) : Option EventPiece := do
  let point := e.graph.point succ
  match point.kind with
  | .edge source target =>
    if (e.graph.state succ).constraints = (e.graph.state pred).constraints then none
    else
      match (← e.program.blockIn? e.frames point.frame source).terminator with
      | .branch cond yes _ _ _ =>
        let span := (e.program.expr cond).span
        return ⟨span.first, e.program.assumption cond (target == yes), [span]⟩
      | _ => none
  | _ => none

/-- What a declaration says of the first value of a variable. -/
def initialMessage (name : String) (v : Value) : String :=
  match v with
  | .loc (.address 0) => "Variable '" ++ name ++ "' initialized to a null pointer value"
  | .undefined => "Variable '" ++ name ++ "' initialized to a garbage value"
  | v =>
    match v.int? with
    | some n => "Variable '" ++ name ++ "' initialized to " ++ toString n
    | none => "Variable '" ++ name ++ "' initialized here"

/-- What an assignment says of the new value of a variable. -/
def assignedMessage (name : String) (v : Value) : String :=
  match v with
  | .loc (.address 0) => "Null pointer value stored to '" ++ name ++ "'"
  | .undefined => "Uninitialized value stored to '" ++ name ++ "'"
  | v =>
    match v.int? with
    | some n => "The value " ++ toString n ++ " is assigned to '" ++ name ++ "'"
    | none => "Value assigned to '" ++ name ++ "'"

/-- Is the region that of a variable in a frame? -/
def isVarIn (c : Catalog) (r : RegionId) (v : VarId) (f : FrameId) : Bool :=
  match c.region r with
  | .var w parent =>
    w == v && c.region parent == .space (Naming.varSpace (c.program.var v).kind f)
  | _ => false

/-- Does the expression store something? -/
def isStore (p : Program) (e : ExprId) : Bool :=
  match (p.expr e).op with
  | .assign .. | .compound .. | .incDec .. => true
  | _ => false

/-- How a step gives a variable its value: by its declaration, or by an assignment. -/
def storeEventOn? (e : Exploration) (element : Element) (f : FrameId) (before after : Store)
    (r : RegionId) : Option EventPiece :=
  match element with
  | .decl v init location =>
    if isVarIn e.catalog r v f then
      let name := (e.program.var v).name
      let message := match init, after.direct? r with
        | none, _ => "Variable '" ++ name ++ "' declared without an initial value"
        | some _, some value => initialMessage name value
        | some _, none => "Variable '" ++ name ++ "' initialized here"
      some ⟨location, message, []⟩
    else none
  | .expr x _ =>
    if after.direct? r = before.direct? r || !isStore e.program x then none
    else do
      let value ← after.direct? r
      let name ← e.catalog.describe? r
      return ⟨(e.program.expr x).location, assignedMessage name value, []⟩
  | _ => none

/-- How a step gives one of some variables its value, and which. -/
def storeEvent? (e : Exploration) (regions : List RegionId) (pred succ : NodeId) :
    Option (RegionId × EventPiece) := do
  let point := e.graph.point succ
  if point.tag.isSome then none
  match point.kind with
  | .after b i =>
    let element ← e.program.elementIn? e.frames point.frame b i
    let before := (e.graph.state pred).store
    let after := (e.graph.state succ).store
    regions.findSome? fun r =>
      (e.storeEventOn? element point.frame before after r).map (r, ·)
  | _ => none

/-! ### The path -/

/-- A call whose end was met on the way back: what comes after it, and the event of its end. -/
structure OpenCall where
  outer : List PathPiece
  exit : EventPiece

/-- What was told so far: the pieces from here to the end of the innermost call that is open, the
open calls, and the variables that are not explained yet. -/
structure Telling where
  pieces : List PathPiece
  calls : List OpenCall
  unexplained : List RegionId

/-- Goes back into a call through its end. -/
def enterCallee (e : Exploration) (pred : NodeId) (site : CallSite) (t : Telling) : Telling :=
  let callee := (e.functionName? (e.graph.point pred).frame).getD "function"
  let exit : EventPiece :=
    ⟨(e.program.expr site.expr).location, "Returning from '" ++ callee ++ "'", []⟩
  { t with pieces := [], calls := ⟨t.pieces, exit⟩ :: t.calls }

/-- Goes back out of a call through its start. A call that was not entered through its end is where
the path ends. -/
def leaveCallee (e : Exploration) (pred succ : NodeId) (site : CallSite) (callee : FunctionId)
    (t : Telling) : Telling :=
  let function := e.program.function callee
  let caller := (e.functionName? (e.graph.point pred).frame).getD "function"
  let location := (e.program.expr site.expr).location
  let entered := ((e.nodeSpan? succ).map (·.first)).getD function.location
  let enter : EventPiece := ⟨location, "Calling '" ++ function.name ++ "'", []⟩
  let within : EventPiece := ⟨entered, "Entered call from '" ++ caller ++ "'", []⟩
  let piece (exit : Option EventPiece) : PathPiece :=
    .call location (some enter) (some within) t.pieces exit
  match t.calls with
  | ⟨outer, exit⟩ :: calls => { t with pieces := piece (some exit) :: outer, calls := calls }
  | [] => { t with pieces := [piece none] }

/-- Tells one step, going back. -/
def tellStep (e : Exploration) (scheme : PathScheme) (finding : Finding) (t : Telling)
    (step : NodeId × NodeId) : Telling :=
  let (pred, succ) := step
  let stored := e.storeEvent? t.unexplained pred succ
  let events := (e.allocationEvent? finding.allocation pred succ).toList ++
    (e.assumptionEvent? pred succ).toList ++ (stored.map (·.2)).toList
  let t := { t with
    unexplained := match stored with
      | some (r, _) => t.unexplained.filter (· != r)
      | none => t.unexplained }
  let push (t : Telling) : Telling :=
    { t with pieces := events.foldl (fun ps x => .event x :: ps) t.pieces }
  match (e.graph.point pred).kind with
  | .callExit site => e.enterCallee pred site (push t)
  | .callEnter site callee => e.leaveCallee pred succ site callee (push t)
  | _ => push { t with pieces := (e.controlPiece? scheme succ).toList ++ t.pieces }

/-- Closes the calls that are still open at the start of the path. -/
def closeCalls : List OpenCall → List PathPiece → List PathPiece
  | [], pieces => pieces
  | ⟨outer, exit⟩ :: calls, pieces =>
    closeCalls calls (.call exit.location none none pieces (some exit) :: outer)

/-- The pieces of a path to a finding. -/
def tell (e : Exploration) (scheme : PathScheme) (finding : Finding) (path : List NodeId) :
    List PathPiece :=
  let last : PathPiece := .event ⟨finding.location, finding.description, finding.spans⟩
  let t := (walkBack path).foldl (e.tellStep scheme finding) ⟨[last], [], finding.regions⟩
  closeCalls t.calls t.pieces

end Exploration

/-! ### Uses of defined names -/

/-- Adds a piece in front of grouped pieces: it joins the use of a name that stands first there if
it stands at the same place. -/
def joinExpansion (x : Expansion) (piece : PathPiece) : List PathPiece → List PathPiece
  | .expansion l name pieces :: rest =>
    if l = x.location then .expansion l name (piece :: pieces) :: rest
    else .expansion x.location x.name [piece] :: .expansion l name pieces :: rest
  | rest => .expansion x.location x.name [piece] :: rest

mutual

/-- Groups what happens in a call. -/
def groupWithin (xs : List Expansion) : PathPiece → PathPiece
  | .call site enter within path exit => .call site enter within (groupExpansions xs path) exit
  | piece => piece

/-- Gathers neighbouring pieces that stand at the use of a defined name. -/
def groupExpansions (xs : List Expansion) : List PathPiece → List PathPiece
  | [] => []
  | piece :: rest =>
    let grouped := groupExpansions xs rest
    let found := match piece with
      | .call .. => none
      | piece => xs.find? fun x => x.location == piece.location
    match found with
    | some x => joinExpansion x piece grouped
    | none => groupWithin xs piece :: grouped

end

/-! ### Diagnostics -/

namespace Exploration

/-- The diagnostic of a report along a path, or of its place alone. -/
def diagnostic (e : Exploration) (scheme : PathScheme) (r : BugReport)
    (path : Option (List NodeId)) : Diagnostic :=
  let f := r.finding
  let (context, pieces) : Option IssueContext × List PathPiece :=
    match path with
    | some path =>
      ((e.functionName? (e.graph.point r.node).frame).map (⟨"function", ·⟩),
        groupExpansions e.program.expansions (e.tell scheme f path))
    | none => (none, [.event ⟨f.location, f.description, f.spans⟩])
  ⟨e.program.file, f.type, f.description, f.location, context, pieces⟩

/-- Is the first path shorter? A missing path is longest. -/
def isShorter (p q : Option (List NodeId)) : Bool :=
  match p, q with
  | some p, some q => p.length < q.length
  | some _, none => true
  | none, _ => false

/-- The report with the shortest path, the earliest of equals. -/
def closest? (g : PathGraph) (reports : List BugReport) :
    Option (BugReport × Option (List NodeId)) :=
  reports.foldl (fun best r =>
    let path := g.shortestPath? r.node
    match best with
    | none => some (r, path)
    | some (s, other) => if isShorter path other then some (r, path) else some (s, other)) none

/-- One diagnostic for each issue. -/
def diagnostics (e : Exploration) (scheme : PathScheme) : List Diagnostic :=
  e.reports.filterMap fun c =>
    (closest? e.graph c.reports).map fun (r, path) => e.diagnostic scheme r path

/-- Hands out one diagnostic for each issue, after which no reports are left. -/
def flush (e : Exploration) (scheme : PathScheme) : List Diagnostic × Exploration :=
  (e.diagnostics scheme, { e with reporter := ∅ })

end Exploration

end PathScout
