import PathScout.Report.Finding

/-!
# Diagnostics

A diagnostic tells how a path comes to a defect, as a list of pieces: events, jumps, calls with
what happens in them, and uses of defined names with what happens at them.

* `PathPiece`, `Diagnostic`: the pieces and the whole.
* `Diagnostic.size`: the number of events and jumps.
* `Diagnostic.events`, `Diagnostic.messages`: what is told, read from the start.
* `DiagnosticSet.insert`: keeps the shortest diagnostic of each issue.
-/

namespace PathScout

/-- Something that happens at a place. -/
structure EventPiece where
  location : Location
  message : String
  spans : List Span := []
deriving DecidableEq, Inhabited

/-- A jump from one piece of source to another. -/
structure ControlEdge where
  start : Span
  stop : Span
deriving DecidableEq

/-- A piece of a path. -/
inductive PathPiece where
  | event (event : EventPiece)
  | control (edges : List ControlEdge) (message : String)
  | call (site : Location) (enter within : Option EventPiece) (path : List PathPiece)
      (exit : Option EventPiece)
  | expansion (location : Location) (name : String) (pieces : List PathPiece)
deriving Inhabited

namespace PathPiece

/-- Where a piece stands. -/
def location : PathPiece → Location
  | event e => e.location
  | control edges _ => (edges.head?.map (·.start.first)).getD .nowhere
  | call site .. => site
  | expansion l .. => l

/-- What a piece itself says. -/
def message? : PathPiece → Option String
  | event e => some e.message
  | control _ message => if message.isEmpty then none else some message
  | _ => none

mutual

/-- The number of events and jumps in a piece. -/
def size : PathPiece → Nat
  | event _ | control .. => 1
  | call _ enter within path exit =>
    enter.toList.length + within.toList.length + sizes path + exit.toList.length
  | expansion _ _ pieces => sizes pieces

/-- The number of events and jumps in some pieces. -/
def sizes : List PathPiece → Nat
  | [] => 0
  | p :: rest => size p + sizes rest

end

mutual

/-- The events in a piece, with the number of calls around them. -/
def events (depth : Nat) : PathPiece → List (Nat × EventPiece)
  | event e => [(depth, e)]
  | control .. => []
  | call _ enter within path exit =>
    enter.toList.map (depth, ·) ++ within.toList.map (depth + 1, ·) ++ eventsIn (depth + 1) path ++
      exit.toList.map (depth + 1, ·)
  | expansion _ _ pieces => eventsIn depth pieces

/-- The events in some pieces. -/
def eventsIn (depth : Nat) : List PathPiece → List (Nat × EventPiece)
  | [] => []
  | p :: rest => events depth p ++ eventsIn depth rest

end

mutual

/-- All that is said in a piece. -/
def messages : PathPiece → List String
  | event e => [e.message]
  | control _ message => if message.isEmpty then [] else [message]
  | call _ enter within path exit =>
    enter.toList.map (·.message) ++ within.toList.map (·.message) ++ messagesIn path ++
      exit.toList.map (·.message)
  | expansion _ _ pieces => messagesIn pieces

/-- All that is said in some pieces. -/
def messagesIn : List PathPiece → List String
  | [] => []
  | p :: rest => messages p ++ messagesIn rest

end

end PathPiece

/-- What a defect lies in, such as a function. -/
structure IssueContext where
  kind : String
  name : String
deriving DecidableEq

/-- How a path comes to a defect. -/
structure Diagnostic where
  file : String
  type : BugType
  description : String
  location : Location
  context : Option IssueContext
  path : List PathPiece

namespace Diagnostic

/-- The issue that a diagnostic is about. -/
def profile (d : Diagnostic) : Profile := ⟨d.type, d.description, d.location⟩

/-- The number of events and jumps. -/
def size (d : Diagnostic) : Nat := PathPiece.sizes d.path

/-- The events from the start, with the number of calls around them. -/
def events (d : Diagnostic) : List (Nat × EventPiece) := PathPiece.eventsIn 0 d.path

/-- All that is said, from the start. -/
def messages (d : Diagnostic) : List String := PathPiece.messagesIn d.path

/-- The last event. -/
def lastEvent? (d : Diagnostic) : Option EventPiece := d.events.getLast?.map (·.2)

end Diagnostic

/-- The shorter one of two diagnostics, of equals the other one. -/
def Diagnostic.orShorter (d : Diagnostic) : Option Diagnostic → Diagnostic
  | some other => if d.size < other.size then d else other
  | none => d

theorem Diagnostic.profile_orShorter (d : Diagnostic) (o : Option Diagnostic)
    (h : ∀ other ∈ o, other.profile = d.profile) : (d.orShorter o).profile = d.profile := by
  cases o with
  | none => rfl
  | some other =>
    show (if d.size < other.size then d else other).profile = _
    split
    · rfl
    · exact h other rfl

/-- Diagnostics, one for each issue. -/
abbrev Diagnostics := List Diagnostic

/-- Diagnostics with an index of their issues. -/
abbrev DiagnosticSet := Slots Diagnostic.profile

/-- Adds a diagnostic: for a new issue at the end, else in the place of the one for its issue if
it is shorter. Tells whether it was taken. -/
def DiagnosticSet.insert (set : DiagnosticSet) (d : Diagnostic) : DiagnosticSet × Bool :=
  (set.alter d.profile d.orShorter d.profile_orShorter,
    match set.get? d.profile with
    | some other => d.size < other.size
    | none => true)

/-- One diagnostic for each issue, in the order in which the issues first occur. -/
def Diagnostics.collect (ds : List Diagnostic) : Diagnostics :=
  (ds.foldl (fun set d => (set.insert d).1) (∅ : DiagnosticSet)).toList

end PathScout
