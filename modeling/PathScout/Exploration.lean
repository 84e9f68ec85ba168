import PathScout.Checker.Check
import PathScout.Worklist

/-!
# Explorations

An exploration follows the paths of one function through its flow graph and records them in a
graph of points and states.

* `Exploration`: what is known so far. `Exploring`: actions on it, which may fail.
* `Exploring.arrive`, `Exploring.advance`: a step of a path to a new point.
* `Exploring.consult`: asks all checkers about an event, one after the other. Each of them lets the
  path go on from one node at most.
* `CoverageNote`: where an exploration was not complete, and why.
-/

namespace PathScout

/-- What a flow graph or the frames may lack. -/
inductive ExplorationError where
  | missingBlock (function : String) (block : BlockId) (location : Location)
  | missingFrame (frame : FrameId) (location : Location)
  | missingBody (function : String) (location : Location)

namespace ExplorationError

/-- Where an error arises. -/
def location : ExplorationError → Location
  | missingBlock _ _ l | missingFrame _ l | missingBody _ l => l

/-- The text of an error. -/
def message (e : ExplorationError) : String :=
  e.location.text ++ ": " ++ match e with
    | missingBlock function block _ => "function '" ++ function ++ "' has no block " ++ block.text
    | missingFrame frame _ => "stack frame #" ++ toString frame.index ++ " was never created"
    | missingBody function _ => "function '" ++ function ++ "' has no body to analyze"

end ExplorationError

/-- Why an exploration is not complete. -/
inductive CoverageKind where
  | blockLimit | nodeBudget | timeout
deriving DecidableEq

/-- A reason in words. -/
def CoverageKind.text : CoverageKind → String
  | blockLimit => "block visit limit reached"
  | nodeBudget => "node budget exhausted"
  | timeout => "timed out"

/-- Where the exploration of a function is not complete, and why. -/
structure CoverageNote where
  function : String
  kind : CoverageKind
  location : Location
deriving DecidableEq

/-- A note in words. -/
def CoverageNote.text (n : CoverageNote) : String :=
  n.location.text ++ ": analysis of '" ++ n.function ++ "' is incomplete: " ++ n.kind.text

/-- What an exploration knows so far. -/
structure Exploration where
  catalog : Catalog
  frames : Frames := ∅
  graph : PathGraph := {}
  reporter : Reporter := ∅
  worklist : Worklist
  coverage : List CoverageNote := []

/-- The reports so far, by issue. -/
def Exploration.reports (e : Exploration) : Reports := e.reporter.toList

/-- Actions on an exploration. -/
abbrev Exploring := StateT Exploration (Except ExplorationError)

namespace Exploring

variable {α : Type}

/-- Reads something off the exploration. -/
def query (f : Exploration → α) : Exploring α := fun e => .ok (f e, e)

/-- Gives numbers to regions and symbols. -/
def naming (x : Naming α) : Exploring α
  | ⟨catalog, frames, graph, reporter, worklist, coverage⟩ =>
    let (a, catalog) := x catalog
    .ok (a, ⟨catalog, frames, graph, reporter, worklist, coverage⟩)

/-- Changes the graph. -/
def onGraph (f : PathGraph → α × PathGraph) : Exploring α
  | ⟨catalog, frames, graph, reporter, worklist, coverage⟩ =>
    let (a, graph) := f graph
    .ok (a, ⟨catalog, frames, graph, reporter, worklist, coverage⟩)

/-- Gives numbers to frames. -/
def onFrames (f : Frames → α × Frames) : Exploring α := fun e =>
  let (a, frames) := f e.frames
  .ok (a, { e with frames := frames })

/-! ### Looking up -/

/-- The state at a node. -/
def stateOf (n : NodeId) : Exploring State := query fun e => e.graph.state n

/-- The function that runs in a frame. -/
def functionOf (f : FrameId) : Exploring Function := do
  match ← query fun e => e.catalog.program.functionIn? e.frames f with
  | some function => return function
  | none => throw (.missingFrame f .nowhere)

/-- The body of the function that runs in a frame. -/
def bodyOf (f : FrameId) : Exploring FunctionBody := do
  let function ← functionOf f
  match function.body with
  | some body => return body
  | none => throw (.missingBody function.name function.location)

/-- A block of the function that runs in a frame. -/
def blockOf (f : FrameId) (b : BlockId) : Exploring Block := do
  match (← bodyOf f).graph.block? b with
  | some block => return block
  | none =>
    let function ← functionOf f
    throw (.missingBlock function.name b function.location)

/-! ### Nodes -/

/-- A step of a path to a node, and whether the node is new. -/
def arrive (pred : NodeId) (node : PathNode) : Exploring (NodeId × Bool) :=
  onGraph fun g =>
    let ((n, isNew), g) := g.add node
    ((n, isNew), g.addEdge pred n)

/-- Makes a node pending. -/
def queue (node : NodeId) (visits : Visits) : Exploring Unit :=
  modify fun e => { e with worklist := e.worklist.push ⟨node, visits⟩ }

/-- A step of a path to a point, from where it is continued later unless another path came there
before. -/
def advance (pred : NodeId) (point : Point) (state : State) (visits : Visits) :
    Exploring Unit := do
  let (n, isNew) ← arrive pred ⟨point, state, false⟩
  if isNew then queue n visits

/-- A step of a path to a point if the state changes, else none. -/
def settle (pred : NodeId) (point : Point) (state : State) : Exploring NodeId := do
  if (← stateOf pred) = state then return pred
  else return (← arrive pred ⟨point, state, false⟩).1

/-- Notes that the exploration of the function at the bottom of the stack is not complete. A note
is made only once. -/
def noteCoverage (f : FrameId) (kind : CoverageKind) (location : Location) : Exploring Unit :=
  modify fun e =>
    let bottom := (Frames.ancestors e.frames f).getLastD f
    match e.catalog.program.functionIn? e.frames bottom with
    | none => e
    | some function =>
      let note : CoverageNote := ⟨function.name, kind, location⟩
      if e.coverage.contains note then e else { e with coverage := e.coverage ++ [note] }

/-! ### Checkers -/

/-- Records findings at a node. -/
def report (n : NodeId) (findings : List Finding) : Exploring Unit :=
  modify fun e => { e with reporter := findings.foldl (fun t f => t.emit ⟨f, n⟩) e.reporter }

/-- Does what a checker says, and gives the node that the path goes on from. -/
def obey (pred : NodeId) (point : Point) : Verdict → Exploring (Option NodeId)
  | .pass => return some pred
  | .proceed state => return some (← settle pred point state)
  | .report state findings => do
    let (n, _) ← arrive pred ⟨point, state, false⟩
    report n findings
    return some n
  | .stop state findings => do
    let (n, _) ← arrive pred ⟨point, state, true⟩
    report n findings
    return none

/-- What a checker sees at a node. -/
def sceneAt (o : Options) (n : NodeId) (point : Point) (visits : Nat) : Exploring Scene :=
  query fun e => ⟨e.graph.state n, point, visits, e.frames, o.store⟩

/-- Asks checkers about an event, one after the other, as long as the path goes on. -/
def consultAll (o : Options) (point : Point) (visits : Nat) (event : Event) :
    List Checker → NodeId → Exploring (Option NodeId)
  | [], n => return some n
  | checker :: rest, n => do
    let point' := point.tagged checker
    let verdict ← naming (checker.check event (← sceneAt o n point' visits))
    match ← obey n point' verdict with
    | some n => consultAll o point visits event rest n
    | none => return none

/-- Asks all checkers about an event. -/
def consult (o : Options) (n : NodeId) (point : Point) (visits : Nat) (event : Event) :
    Exploring (Option NodeId) :=
  consultAll o point visits event o.checkers n

end Exploring

end PathScout
