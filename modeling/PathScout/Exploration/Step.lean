import PathScout.Exploration.Element

/-!
# Following paths

* `Exploring.enterBlock`: a path enters a block. What cannot be reached any more is forgotten, and
  a block that was entered too often ends the path.
* `Exploring.branchOut`: a path leaves a block on every way that its state allows.
* `Exploring.dispatch`: continues a pending node.
* `explore`: all paths of a function.
-/

namespace PathScout

namespace Exploring

/-! ### Entering blocks -/

/-- The variables of a function that matter when a block of it is entered; all of them if no block
is given. -/
def liveVars (function : Function) (body : FunctionBody) (entering : Option BlockId) :
    List VarId :=
  (function.params ++ body.locals).filter fun v =>
    match entering with
    | some b => body.liveness.isLiveAtEntry b v
    | none => true

/-- Marks the variables of some frames, innermost first. Only the first one is entering a block. -/
def markFrames (p : Program) (fs : Frames) : List FrameId → Option BlockId → Marks → Naming Marks
  | [], _, m => return m
  | f :: rest, entering, m => do
    let vars : List VarId :=
      match p.functionIn? fs f with
      | some function => (function.body.map (liveVars function · entering)).getD []
      | none => []
    let m ← vars.foldlM (fun m v => do
      let r ← Naming.var v f
      Naming.query fun c => Marks.markRegion m c r) m
    markFrames p fs rest none m

/-- What a path can still reach from some frames on. -/
def liveMarks (s : State) (chain : List FrameId) (entering : Option BlockId) :
    Exploring Marks := do
  let (program, frames) ← query fun e => (e.catalog.program, e.frames)
  naming do
    let m ← markFrames program frames chain entering {}
    Naming.query fun c => m.markReachable c s.store s.env

/-- The expression that stands for a loop: its condition, or the first one in it. -/
def loopExpr? (b : Block) : Option ExprId :=
  match b.terminator with
  | .branch cond .. | .switch cond .. => some cond
  | _ => b.elements.toList.findSome? fun
    | .expr e _ => some e
    | _ => none

/-- Forgets all variables that a loop may change. -/
def widenLoop (o : Options) (s : State) (b : Block) (f : FrameId) (count : Nat) :
    Exploring State := do
  match loopExpr? b with
  | none => return s
  | some e =>
    let function ← functionOf f
    let vars := function.params ++ (function.body.map (·.locals)).getD []
    naming do
      let regions ← vars.mapM (Naming.var · f)
      return (← s.invalidate o.store ⟨regions, e, f, count, true⟩).1

/-- A path enters a block. -/
def enterBlock (o : Options) (pred : NodeId) (b : BlockId) (f : FrameId) (visits : Visits) :
    Exploring Unit := do
  let block ← blockOf f b
  let point : Point := ⟨.entrance b, f, none⟩
  let count := visits.count f b + 1
  let state ← stateOf pred
  if o.maxBlockVisits < count then
    let _ ← arrive pred ⟨point, state, true⟩
    let function ← functionOf f
    let start ← query fun e => e.catalog.program.startSpan? block
    noteCoverage f .blockLimit ((start.map (·.first)).getD function.location)
  else
    let chain ← query fun e => Frames.ancestors e.frames f
    let marks ← liveMarks state chain (some b)
    match ← consult o pred point count (.dead marks) with
    | none => return ()
    | some n =>
      let state ← stateOf n
      let widen := count = o.maxBlockVisits ∧ block.loopHead ∧ o.loopExhaustion = .widen
      let state ← if widen then widenLoop o state block f count else pure state
      let state ← query fun e => state.removeDead e.catalog marks
      advance n point state (visits.enter f b)

/-! ### Steps of a block -/

/-- A step was evaluated: the path stands after it. -/
def finishElement (o : Options) (spot : Spot) (outcome : Outcome) : Exploring Unit := do
  let (n, isNew) ← arrive outcome.pred ⟨spot.after, outcome.state, false⟩
  if isNew then
    match outcome.call with
    | none => queue n spot.visits
    | some call =>
      match ← consult o n spot.after spot.count (.callEnds call) with
      | some n => queue n spot.visits
      | none => return ()

/-- Evaluates the next step. -/
def processElement (o : Options) (spot : Spot) (pred : NodeId) (state : State)
    (element : Element) : Exploring Unit := do
  let pred ← settle pred spot.before state
  match ← ask o spot pred (.element element) with
  | none => return ()
  | some n =>
    match ← evalElement o spot n element with
    | some outcome => finishElement o spot outcome
    | none => return ()

/-! ### Leaving blocks -/

/-- A path goes from one block to another. -/
def followEdge (f : FrameId) (visits : Visits) (pred : NodeId) (source target : BlockId)
    (state : State) : Exploring Unit :=
  advance pred ⟨.edge source target, f, none⟩ state visits

/-- Both ways of a branch, where they are possible. -/
def branchStates (c : Catalog) (s : State) (value : Value) : Option State × Option State :=
  if value.isUnknown || value.isUndefined then (some s, some s)
  else (s.assume c value true, s.assume c value false)

/-- The ways of a switch: the cases that are possible, each with its state, and the state in which
none of them holds. -/
def switchStates (s : State) (value : Value) (t : CType) :
    List CaseTarget → Option State → Naming (List (BlockId × State) × Option State)
  | [], rest => return ([], rest)
  | target :: more, rest => do
    if value.isUnknown || value.isUndefined then
      let (ways, rest) ← switchStates s value t more rest
      return ((target.block, s) :: ways, rest)
    else
      let matched ← Naming.binary .eq value (.ofInt target.value t) .int
      let (yes, no) ← Naming.query fun c =>
        (s.assume c matched true, rest.bind fun r => r.assume c matched false)
      let (ways, rest) ← switchStates s value t more no
      return ((yes.map (target.block, ·)).toList ++ ways, rest)

/-- A path leaves a block, on every way that is possible. -/
def branchOut (o : Options) (pred : NodeId) (state : State) (b : BlockId) (f : FrameId)
    (visits : Visits) : Exploring Unit := do
  let block ← blockOf f b
  let exit : Point := ⟨.exit b, f, none⟩
  let count := visits.count f b
  match block.terminator with
  | .goto target _ => followEdge f visits pred b target state
  | .branch cond yes no _ _ =>
    let pred ← settle pred exit state
    match ← consult o pred exit count (.condition cond) with
    | none => return ()
    | some n =>
      let state ← stateOf n
      let (taken, other) ← query fun e => branchStates e.catalog state (state.value f cond)
      taken.forM (followEdge f visits n b yes)
      other.forM (followEdge f visits n b no)
  | .switch cond cases default _ _ =>
    let pred ← settle pred exit state
    match ← consult o pred exit count (.condition cond) with
    | none => return ()
    | some n =>
      let state ← stateOf n
      let type ← query fun e => (e.catalog.program.expr cond).type
      let (ways, rest) ← naming (switchStates state (state.value f cond) type cases (some state))
      ways.forM fun (target, s) => followEdge f visits n b target s
      rest.forM (followEdge f visits n b default)
  | .exit =>
    let pred ← settle pred exit state
    let finish : Point := ⟨.finish, f, none⟩
    match ← consult o pred finish count .functionEnds with
    | none => return ()
    | some n => advance n finish (← stateOf n) visits

/-- Goes on in a block at the given step. -/
def continueBlock (o : Options) (pred : NodeId) (state : State) (spot : Spot) :
    Exploring Unit := do
  match (← blockOf spot.frame spot.block).elements[spot.index]? with
  | some element => processElement o spot pred state element
  | none => branchOut o pred state spot.block spot.frame spot.visits

/-- Goes on after a step. The values of expressions are forgotten after a statement. -/
def afterElement (o : Options) (n : NodeId) (spot : Spot) : Exploring Unit := do
  let state ← stateOf n
  let element := (← blockOf spot.frame spot.block).elements[spot.index]?
  let state := if element.any (·.isRoot) then state.clearExprs spot.frame else state
  continueBlock o n state { spot with index := spot.index + 1 }

/-! ### Leaving functions -/

/-- The function in a frame is over: it returns to the frame that waits for it, or the path ends. -/
def leaveFrame (o : Options) (n : NodeId) (f : FrameId) (visits : Visits) : Exploring Unit := do
  let state ← stateOf n
  match ← query fun e => Frames.frame? e.frames f with
  | none => throw (.missingFrame f .nowhere)
  | some ⟨some _, _, some site, _⟩ => advance n ⟨.callExit site, f, none⟩ state visits
  | some _ =>
    let marks ← liveMarks state [] none
    let _ ← consult o n ⟨.finish, f, none⟩ 0 (.dead marks)

/-- The state after a call: its value is what was returned, and the frame is gone. -/
def popFrame (s : State) (caller callee : FrameId) (e : ExprId) : State :=
  (s.bindExpr caller e ((s.result? callee).getD .unknown)).dropFrame callee

/-- A path returns from a call. -/
def returnToCaller (o : Options) (n : NodeId) (site : CallSite) (callee : FrameId)
    (visits : Visits) : Exploring Unit := do
  match ← query fun e => Frames.caller? e.frames callee with
  | none => throw (.missingFrame callee .nowhere)
  | some caller =>
    let program ← query (·.catalog.program)
    if (← blockOf caller site.block).elements[site.index]?.isNone then
      throw (.missingBlock (← functionOf caller).name site.block (program.expr site.expr).location)
    let spot : Spot := ⟨caller, site.block, site.index, visits⟩
    let state ← stateOf n
    let chain ← query fun e => Frames.ancestors e.frames caller
    let marks ← liveMarks (popFrame state caller callee site.expr) chain none
    match ← consult o n spot.after spot.count (.dead marks) with
    | none => return ()
    | some done =>
      let after := popFrame (← stateOf done) caller callee site.expr
      let after ← query fun e => after.removeDead e.catalog marks
      finishElement o spot ⟨done, after, state.callEvent? program caller site.expr site⟩

/-! ### The search -/

/-- Continues a pending node. -/
def dispatch (o : Options) (p : Pending) : Exploring Unit := do
  let point ← query fun e => e.graph.point p.node
  let f := point.frame
  match point.kind with
  | .entry => enterBlock o p.node (← bodyOf f).graph.entry f p.visits
  | .edge _ target => enterBlock o p.node target f p.visits
  | .entrance b => continueBlock o p.node (← stateOf p.node) ⟨f, b, 0, p.visits⟩
  | .after b i => afterElement o p.node ⟨f, b, i, p.visits⟩
  | .callEnter site function =>
    let callee ← onFrames fun fs => Frames.call fs f function site
    enterBlock o p.node (← bodyOf callee).graph.entry callee p.visits
  | .finish => leaveFrame o p.node f p.visits
  | .callExit site => returnToCaller o p.node site f p.visits
  | .before .. | .exit _ => return ()

/-- Takes the next pending node. -/
def nextPending : Exploring (Option Pending) := fun e =>
  match e.worklist.pop? with
  | some (p, worklist) => .ok (some p, { e with worklist := worklist })
  | none => .ok (none, e)

/-- Continues pending nodes until there are none or there are too many nodes. -/
def search (o : Options) (f : FrameId) (location : Location) : (steps : Nat) → Exploring Unit
  | 0 => return ()
  | steps + 1 => do
    match ← nextPending with
    | none => return ()
    | some p =>
      if o.maxNodes ≤ (← query fun e => e.graph.size) then
        noteCoverage f .nodeBudget location
        modify fun e => { e with worklist := e.worklist.clear }
      else
        dispatch o p
        search o f location steps

/-- Follows all paths of a function. Every pending node was made pending when a node was new, so
the number of nodes that is allowed bounds the number of steps. -/
def followAll (o : Options) (function : FunctionId) : Exploring Unit := do
  let decl ← query fun e => e.catalog.program.function function
  if decl.body.isNone then throw (.missingBody decl.name decl.location)
  let f ← onFrames fun fs => Frames.top fs function
  let state ← if decl.name = "main" then naming (State.ofGlobals o.store f) else pure {}
  let (root, _) ← onGraph fun g => g.add ⟨⟨.entry, f, none⟩, state, false⟩
  onGraph fun g => ((), g.addRoot root)
  queue root {}
  search o f decl.location o.maxNodes

end Exploring

/-- All paths of a function of a program. -/
def explore (o : Options) (p : Program) (function : FunctionId) :
    Except ExplorationError Exploration :=
  (·.2) <$> StateT.run (Exploring.followAll o function)
    { catalog := .ofProgram p, worklist := { order := o.searchOrder } }

end PathScout
