import PathScout.Exploration
import PathScout.State.Evaluate

/-!
# Evaluating the steps of a block

* `Spot`: a step of a block on a path.
* `Exploring.evalElement`: evaluates one step. The path goes on in one state at most.
* `Exploring.evalCall`: a call that a checker knows is evaluated by it; otherwise the called
  function is entered if that is allowed; otherwise everything that it may change is forgotten.
-/

namespace PathScout

/-- A step of a block in a frame, on a path with the given visits. -/
structure Spot where
  frame : FrameId
  block : BlockId
  index : Nat
  visits : Visits

namespace Spot

/-- The point before the step. -/
def before (s : Spot) : Point := ⟨.before s.block s.index, s.frame, none⟩

/-- The point after the step. -/
def after (s : Spot) : Point := ⟨.after s.block s.index, s.frame, none⟩

/-- How often the path entered the block. -/
def count (s : Spot) : Nat := s.visits.count s.frame s.block

/-- The step as the place of a call. -/
def site (s : Spot) (e : ExprId) : CallSite := ⟨s.block, s.index, e⟩

end Spot

/-- The state after a step that was evaluated, the node it was evaluated from, and the call if it
was one. -/
structure Outcome where
  pred : NodeId
  state : State
  call : Option CallEvent := none

/-- A call with the values of its arguments in a state. -/
def State.callEvent? (s : State) (p : Program) (f : FrameId) (e : ExprId) (site : CallSite) :
    Option CallEvent :=
  match (p.expr e).op with
  | .call callee args => some {
      expr := e
      callee := callee
      name := (p.function callee).name
      args := args.map (s.value f)
      argExprs := args
      frame := f
      site := site }
  | _ => none

namespace Exploring

/-- Asks all checkers about an event before the step. -/
def ask (o : Options) (spot : Spot) (n : NodeId) (event : Event) : Exploring (Option NodeId) :=
  consult o n spot.before spot.count event

/-- What a place holds. -/
def read (o : Options) (s : State) (location : Value) (t : CType) : Exploring Value :=
  match location.loc? with
  | some l => naming (o.store.retrieve s.store l t)
  | none => return .unknown

/-- Reads a place. -/
def evalLoad (o : Options) (spot : Spot) (pred : NodeId) (e place : ExprId) :
    Exploring (Option Outcome) := do
  let location := (← stateOf pred).value spot.frame place
  match ← ask o spot pred (.access location place) with
  | none => return none
  | some n =>
    let state ← stateOf n
    let type ← query fun x => (x.catalog.program.expr e).type
    let value ← read o state location type
    return some ⟨n, state.bindExpr spot.frame e value, none⟩

/-- Writes a value to a place. -/
def store (o : Options) (spot : Spot) (pred : NodeId) (location value : Value) (span : Span) :
    Exploring (Option (NodeId × State)) := do
  match ← ask o spot pred (.write location value span) with
  | none => return none
  | some n =>
    let state ← stateOf n
    match location.region? with
    | some r => return some (n, ← naming (state.write o.store r value))
    | none => return some (n, state)

/-- Assigns to a place. -/
def evalStore (o : Options) (spot : Spot) (pred : NodeId) (e place : ExprId) :
    Exploring (Option Outcome) := do
  let before ← stateOf pred
  let program ← query (·.catalog.program)
  let location := before.value spot.frame place
  match ← ask o spot pred (.access location place) with
  | none => return none
  | some n =>
    let old ← read o (← stateOf n) location (program.expr place).type
    let (stored, result) ← naming (before.updated spot.frame (program.expr e) old)
    match ← store o spot n location stored (program.expr e).span with
    | none => return none
    | some (n, state) => return some ⟨n, state.bindExpr spot.frame e result, none⟩

/-! ### Calls -/

/-- Lets the first checker that knows the called function evaluate a call. -/
def evalByChecker (o : Options) (spot : Spot) (pred : NodeId) (call : CallEvent) :
    List Checker → Exploring (Option (Option NodeId))
  | [] => return none
  | checker :: rest => do
    let point := spot.before.tagged checker
    match ← naming (checker.evalCall? call (← sceneAt o pred point spot.count)) with
    | some verdict => return some (← obey pred point verdict)
    | none => evalByChecker o spot pred call rest

/-- May the called function be entered? Not too deep, and not while it is active. -/
def mayInline (o : Options) (f : FrameId) (callee : FunctionId) (e : Exploration) : Bool :=
  o.inlineCalls && (e.catalog.program.function callee).body.isSome &&
    ((Frames.frame? e.frames f).map (·.depth)).getD 0 < o.maxInlineDepth &&
    !Frames.isOnStack e.frames f callee

/-- Gives parameters the values of arguments; a missing one is unknown. -/
def bindParams (p : StorePolicy) (f : FrameId) : List VarId → List Value → State → Naming State
  | [], _, s => return s
  | v :: vs, args, s => do
    let r ← Naming.var v f
    bindParams p f vs args.tail (← s.write p r (args.headD .unknown))

/-- Enters the called function. -/
def inlineCall (o : Options) (spot : Spot) (pred : NodeId) (call : CallEvent) :
    Exploring Unit := do
  let params ← query fun e => (e.catalog.program.function call.callee).params
  let callee ← onFrames fun fs => Frames.call fs call.frame call.callee call.site
  let state ← naming (bindParams o.store callee params call.args (← stateOf pred))
  advance pred ⟨.callEnter call.site call.callee, call.frame, none⟩ state spot.visits

/-- The objects that a called function may change: those its arguments point to. -/
def exposed (c : Catalog) (args : List Value) : List RegionId :=
  ((args.filterMap (·.region?)).map c.base).filter (fun r => !Store.isImmutable c r) |>.eraseDups

/-- Evaluates a call without looking at the called function. -/
def conservativeCall (o : Options) (spot : Spot) (pred : NodeId) (call : CallEvent) :
    Exploring Outcome := do
  let state ← stateOf pred
  naming do
    let regions ← Naming.query fun c => exposed c call.args
    let (state, lost) ← state.invalidate o.store
      ⟨regions, call.expr, call.frame, spot.count, o.invalidateGlobals⟩
    let type ← Naming.query fun c => (c.program.expr call.expr).type
    let state ←
      if type.isVoid then pure state
      else do
        let value ← Naming.conjure call.expr call.frame type spot.count
        pure (state.bindExpr call.frame call.expr value)
    return ⟨pred, state, some { call with conservative := true, invalidated := lost }⟩

/-- Evaluates a call. -/
def evalCall (o : Options) (spot : Spot) (pred : NodeId) (e : ExprId) :
    Exploring (Option Outcome) := do
  let state ← stateOf pred
  match ← query fun x => state.callEvent? x.catalog.program spot.frame e (spot.site e) with
  | none => return none
  | some call =>
    match ← ask o spot pred (.callBegins call) with
    | none => return none
    | some n =>
      match ← evalByChecker o spot n call o.checkers with
      | some none => return none
      | some (some n) => return some ⟨n, ← stateOf n, some call⟩
      | none =>
        if ← query (mayInline o spot.frame call.callee) then
          inlineCall o spot n call
          return none
        else return some (← conservativeCall o spot n call)

/-! ### Steps -/

/-- Evaluates an expression. -/
def evalExpr (o : Options) (spot : Spot) (pred : NodeId) (e : ExprId) :
    Exploring (Option Outcome) := do
  match ← query fun x => (x.catalog.program.expr e).op with
  | .load place => evalLoad o spot pred e place
  | .assign place _ | .compound _ place _ | .incDec place _ _ => evalStore o spot pred e place
  | .call .. => evalCall o spot pred e
  | _ =>
    let state ← stateOf pred
    match ← naming (state.evaluate? spot.frame e) with
    | some value => return some ⟨pred, state.bindExpr spot.frame e value, none⟩
    | none => return some ⟨pred, state, none⟩

/-- Declares a variable. -/
def evalDecl (o : Options) (spot : Spot) (pred : NodeId) (v : VarId) (init : Option DeclInit)
    (location : Location) : Exploring (Option Outcome) := do
  let state ← stateOf pred
  let r ← naming (Naming.var v spot.frame)
  let program ← query (·.catalog.program)
  let type := (program.var v).type
  match init with
  | none => return some ⟨pred, ← query fun e => state.kill e.catalog r, none⟩
  | some (.list entries) =>
    return some ⟨pred, ← naming (state.writeList o.store spot.frame r type entries), none⟩
  | some (.expr e) =>
    match type, (program.expr e).op with
    | .array .., .string text =>
      return some ⟨pred, ← naming (state.writeText o.store r text), none⟩
    | _, _ =>
      let span : Span := ⟨location, (program.expr e).span.last⟩
      match ← store o spot pred (.pointer r) (state.value spot.frame e) span with
      | none => return none
      | some (n, state) => return some ⟨n, state, none⟩

/-- The value of a joined expression on one of its ways. -/
def mergedValue (s : State) (f : FrameId) (t : CType) : MergeValue → Value
  | .int n => .ofInt n t
  | .expr e => s.value f e

/-- Evaluates one step. -/
def evalElement (o : Options) (spot : Spot) (pred : NodeId) (element : Element) :
    Exploring (Option Outcome) := do
  match element with
  | .expr e _ => evalExpr o spot pred e
  | .decl v init location => evalDecl o spot pred v init location
  | .merge target value =>
    let state ← stateOf pred
    let type ← query fun e => (e.catalog.program.expr target).type
    return some ⟨pred, state.bindExpr spot.frame target (mergedValue state spot.frame type value), none⟩
  | .return value _ =>
    let state ← stateOf pred
    match value with
    | some e => return some ⟨pred, state.bindResult spot.frame (state.value spot.frame e), none⟩
    | none => return some ⟨pred, state, none⟩

end Exploring

end PathScout
