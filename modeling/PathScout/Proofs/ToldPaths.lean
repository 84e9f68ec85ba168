import PathScout.Proofs.FrameMoves
import PathScout.Proofs.GraphInvariants

/-!
# Telling a path back to front

A path is told from its end, and calls are put together on the way: the end of a call opens it, and its
start closes it. On a path of an exploration calls are properly nested, so what is told is the path with
its calls nested, and the only calls without an end are those in which the path ends.

* `Story`: a path with its calls nested. `Story.steps`, `Story.pieces`: its steps and how it is told.
* `Story.Tells`: each call lies between its start and its end, in a frame of its own.
* `Retells`: what was told of the rest of a path. `Retells.tellStep`: one step back.
* `Exploration.exists_story`: what is told of a path is a story of it.
-/

namespace PathScout

open List

/-!
## Reading the pieces of a path

The pieces of a path are a tree: calls have pieces inside, and so have the uses of defined names. Read from
the start, the tree gives events, jumps and calls, one after the other. Gathering pieces at the use of a
defined name changes nothing of this.

* `PathPiece.ungroup`: the pieces without the uses of defined names.
* `Met`, `PathPiece.read`: what a piece gives from its start. `Diagnostic.reading`: a diagnostic.
* `PathPiece.ungroupIn_groupExpansions`: gathering adds nothing but uses of defined names.
* `PathPiece.readIn_ungroupIn`: these do not count. `PathPiece.eventsIn_eq`: the events are those read.
-/

/-- A call among the pieces of a path, without what happens in it. -/
structure CallShape where
  site : Location
  enter : Option EventPiece
  within : Option EventPiece
  exit : Option EventPiece
deriving DecidableEq

/-- The call with what happens in it. -/
def CallShape.piece (c : CallShape) (path : List PathPiece) : PathPiece :=
  .call c.site c.enter c.within path c.exit

/-- What is met when pieces are read: an event or the start of a call, with the number of calls around it,
or a jump. -/
inductive Met where
  | event (depth : Nat) (event : EventPiece)
  | jump (piece : PathPiece)
  | call (depth : Nat) (shape : CallShape)

namespace Met

/-- The event that was met. -/
def event? : Met → Option (Nat × EventPiece)
  | event depth e => some (depth, e)
  | _ => none

/-- The jump that was met. -/
def jump? : Met → Option PathPiece
  | jump piece => some piece
  | _ => none

/-- The call that was met. -/
def call? : Met → Option (Nat × CallShape)
  | call depth shape => some (depth, shape)
  | _ => none

end Met

namespace PathPiece

mutual

/-- A piece without the uses of defined names around its parts. -/
def ungroup : PathPiece → List PathPiece
  | event e => [event e]
  | control edges message => [control edges message]
  | call site enter within path exit => [call site enter within (ungroupIn path) exit]
  | expansion _ _ pieces => ungroupIn pieces

/-- Pieces without the uses of defined names around them. -/
def ungroupIn : List PathPiece → List PathPiece
  | [] => []
  | p :: rest => ungroup p ++ ungroupIn rest

end

mutual

/-- A piece, read from its start. -/
def read (depth : Nat) : PathPiece → List Met
  | event e => [.event depth e]
  | control edges message => [.jump (control edges message)]
  | call site enter within path exit =>
    .call depth ⟨site, enter, within, exit⟩ :: (enter.toList.map (.event depth) ++
      within.toList.map (.event (depth + 1)) ++ readIn (depth + 1) path ++
        exit.toList.map (.event (depth + 1)))
  | expansion _ _ pieces => readIn depth pieces

/-- Some pieces, read from their start. -/
def readIn (depth : Nat) : List PathPiece → List Met
  | [] => []
  | p :: rest => read depth p ++ readIn depth rest

end

theorem ungroupIn_append (xs ys : List PathPiece) :
    ungroupIn (xs ++ ys) = ungroupIn xs ++ ungroupIn ys := by
  induction xs with
  | nil => rw [nil_append, ungroupIn, nil_append]
  | cons p xs ih => rw [cons_append, ungroupIn, ungroupIn, ih, append_assoc]

theorem readIn_append (d : Nat) (xs ys : List PathPiece) :
    readIn d (xs ++ ys) = readIn d xs ++ readIn d ys := by
  induction xs with
  | nil => rw [nil_append, readIn, nil_append]
  | cons p xs ih => rw [cons_append, readIn, readIn, ih, append_assoc]

/-! ### The uses of defined names -/

mutual

theorem readIn_ungroup (d : Nat) (p : PathPiece) : readIn d (ungroup p) = read d p := by
  cases p with
  | event e | control edges message => rw [ungroup, readIn, readIn, append_nil]
  | call site enter within path exit =>
    rw [ungroup, readIn, readIn, append_nil, read, read, readIn_ungroupIn (d + 1) path]
  | expansion l name pieces => rw [ungroup, read, readIn_ungroupIn d pieces]

/-- **Uses of defined names** do not count when pieces are read. -/
theorem readIn_ungroupIn (d : Nat) (ps : List PathPiece) : readIn d (ungroupIn ps) = readIn d ps := by
  cases ps with
  | nil => rw [ungroupIn]
  | cons p rest => rw [ungroupIn, readIn_append, readIn, readIn_ungroup d p, readIn_ungroupIn d rest]

end

theorem ungroupIn_joinExpansion (x : Expansion) (p : PathPiece) (rest : List PathPiece) :
    ungroupIn (joinExpansion x p rest) = ungroup p ++ ungroupIn rest := by
  have hnew : ∀ rest, ungroupIn (.expansion x.location x.name [p] :: rest) =
      ungroup p ++ ungroupIn rest := fun rest => by
    rw [ungroupIn, ungroup, ungroupIn, ungroupIn, append_nil]
  unfold joinExpansion
  split
  · split
    · rw [ungroupIn, ungroup, ungroupIn, ungroupIn, ungroup, append_assoc]
    · exact hnew _
  · exact hnew _

mutual

theorem ungroup_groupWithin (xs : List Expansion) (p : PathPiece) :
    ungroup (groupWithin xs p) = ungroup p := by
  cases p with
  | call site enter within path exit =>
    rw [groupWithin, ungroup, ungroup, ungroupIn_groupExpansions xs path]
  | event e | control edges message | expansion l name pieces => rw [groupWithin]; nofun

/-- **Gathering pieces** adds nothing but uses of defined names. -/
theorem ungroupIn_groupExpansions (xs : List Expansion) (ps : List PathPiece) :
    ungroupIn (groupExpansions xs ps) = ungroupIn ps := by
  cases ps with
  | nil => rw [groupExpansions]
  | cons p rest =>
    have hstep (found : Option Expansion) : ungroupIn (match found with
          | some x => joinExpansion x p (groupExpansions xs rest)
          | none => groupWithin xs p :: groupExpansions xs rest) = ungroupIn (p :: rest) := by
      cases found with
      | none => rw [ungroupIn, ungroup_groupWithin xs p, ungroupIn_groupExpansions xs rest, ungroupIn]
      | some x => rw [ungroupIn_joinExpansion, ungroupIn_groupExpansions xs rest, ungroupIn]
    unfold groupExpansions
    exact hstep _

end

/-! ### Events -/

theorem filterMap_event?_map (d : Nat) (x : Option EventPiece) :
    (x.toList.map (Met.event d)).filterMap Met.event? = x.toList.map (d, ·) := by
  cases x <;> rfl

mutual

theorem events_eq (d : Nat) (p : PathPiece) : events d p = (read d p).filterMap Met.event? := by
  cases p with
  | event e | control edges message => rw [events, read]; rfl
  | call site enter within path exit =>
    rw [events, read, filterMap_cons]
    simp only [Met.event?, filterMap_append, filterMap_event?_map, eventsIn_eq (d + 1) path]
  | expansion l name pieces => rw [events, read, eventsIn_eq d pieces]

theorem eventsIn_eq (d : Nat) (ps : List PathPiece) :
    eventsIn d ps = (readIn d ps).filterMap Met.event? := by
  cases ps with
  | nil => rw [eventsIn, readIn, filterMap_nil]
  | cons p rest => rw [eventsIn, readIn, filterMap_append, events_eq d p, eventsIn_eq d rest]

end

end PathPiece

namespace Diagnostic

/-- A diagnostic, read from its start. -/
def reading (d : Diagnostic) : List Met := PathPiece.readIn 0 d.path

/-- The calls of a diagnostic with the number of calls around them, outer ones before inner ones. -/
def calls (d : Diagnostic) : List (Nat × CallShape) := d.reading.filterMap Met.call?

/-- The jumps of a diagnostic. -/
def jumps (d : Diagnostic) : List PathPiece := d.reading.filterMap Met.jump?

theorem events_eq (d : Diagnostic) : d.events = d.reading.filterMap Met.event? :=
  PathPiece.eventsIn_eq 0 d.path

end Diagnostic

/-! ## Telling a path back to front -/

/-! ### Stories -/

/-- A step of a path, with the events that are told of it, last one first. -/
structure ToldStep where
  pred : NodeId
  succ : NodeId
  events : List EventPiece

namespace ToldStep

/-- The step itself. -/
def pair (s : ToldStep) : NodeId × NodeId := (s.pred, s.succ)

@[simp]
theorem pair_fst (s : ToldStep) : s.pair.1 = s.pred := rfl

@[simp]
theorem pair_snd (s : ToldStep) : s.pair.2 = s.succ := rfl

/-- What is told of the step. -/
def told (s : ToldStep) : List PathPiece := s.events.reverse.map .event

end ToldStep

/-- A path with its calls nested. The last call is open if the path ends in it. -/
inductive Story where
  | done
  | step (s : ToldStep) (rest : Story)
  | call (site : CallSite) (callee : FunctionId) (enter : ToldStep) (body : Story) (exit : ToldStep)
      (rest : Story)
  | opened (site : CallSite) (callee : FunctionId) (enter : ToldStep) (body : Story)

namespace Exploration

/-- A call as it is told: where it is made, where it is entered, and its end. -/
def callShape (e : Exploration) (site : CallSite) (callee : FunctionId) (s : ToldStep)
    (exit : Option EventPiece) : CallShape :=
  let function := e.program.function callee
  let location := (e.program.expr site.expr).location
  let caller := (e.functionName? (e.graph.point s.pred).frame).getD "function"
  let entered := ((e.nodeSpan? s.succ).map (·.first)).getD function.location
  ⟨location, some ⟨location, "Calling '" ++ function.name ++ "'", []⟩,
    some ⟨entered, "Entered call from '" ++ caller ++ "'", []⟩, exit⟩

/-- The end of a call as it is told. -/
def exitEvent (e : Exploration) (n : NodeId) (site : CallSite) : EventPiece :=
  let callee := (e.functionName? (e.graph.point n).frame).getD "function"
  ⟨(e.program.expr site.expr).location, "Returning from '" ++ callee ++ "'", []⟩

/-- The step enters a call that is made in the frame `c`, in the frame `g` of its own. -/
structure Enters (e : Exploration) (s : ToldStep) (c g : FrameId) (site : CallSite)
    (callee : FunctionId) : Prop where
  start : (e.graph.point s.pred).kind = .callEnter site callee
  caller : (e.graph.point s.pred).frame = c
  target : (e.graph.point s.succ).frame = g
  entrance : ∃ b, (e.graph.point s.succ).kind = .entrance b
  called : ∃ depth, e.frames.frame? g = some ⟨some c, callee, some site, depth⟩

/-- The step returns from the call in the frame `g` to the frame `c`. -/
structure Returns (e : Exploration) (x : ToldStep) (g c : FrameId) (site : CallSite) : Prop where
  stop : (e.graph.point x.pred).kind = .callExit site
  callee : (e.graph.point x.pred).frame = g
  target : (e.graph.point x.succ).frame = c
  after : (e.graph.point x.succ).kind = .after site.block site.index

end Exploration

namespace Story

/-- The steps of the path. -/
def steps : Story → List (NodeId × NodeId)
  | done => []
  | step s rest => s.pair :: rest.steps
  | call _ _ enter body exit rest => enter.pair :: (body.steps ++ exit.pair :: rest.steps)
  | opened _ _ enter body => enter.pair :: body.steps

/-- How the path is told, if it is told at its end that `last`. -/
def pieces (e : Exploration) (scheme : PathScheme) (last : List PathPiece) : Story → List PathPiece
  | done => last
  | step s rest => s.told ++ ((e.controlPiece? scheme s.succ).toList ++ rest.pieces e scheme last)
  | call site callee enter body exit rest =>
    (e.callShape site callee enter (some (e.exitEvent exit.pred site))).piece
      (enter.told ++ body.pieces e scheme []) :: (exit.told ++ rest.pieces e scheme last)
  | opened site callee enter body =>
    [(e.callShape site callee enter none).piece (enter.told ++ body.pieces e scheme last)]

/-- The frames of the calls in which the path ends, outer ones first. -/
def openFrames (e : Exploration) : Story → List FrameId
  | done => []
  | step _ rest | call _ _ _ _ _ rest => rest.openFrames e
  | opened _ _ enter body => (e.graph.point enter.succ).frame :: body.openFrames e

/-- The story goes on in the frame, and comes to the end of the path in the frame `goal`, or to the end of
the called function. A call starts and ends in one frame, and what happens between is in the frame that it
entered. -/
inductive Tells (e : Exploration) : FrameId → Option FrameId → Story → Prop where
  | finished {f : FrameId} : Tells e f none .done
  | reached {f : FrameId} : Tells e f (some f) .done
  | step {f : FrameId} {goal : Option FrameId} {s : ToldStep} {rest : Story} :
    (e.graph.point s.pred).frame = f → (e.graph.point s.succ).frame = f →
    (∀ site callee, (e.graph.point s.pred).kind ≠ .callEnter site callee) →
    (∀ site, (e.graph.point s.pred).kind ≠ .callExit site) →
    Tells e f goal rest → Tells e f goal (.step s rest)
  | call {c g : FrameId} {goal : Option FrameId} {site : CallSite} {callee : FunctionId}
    {enter exit : ToldStep} {body rest : Story} : e.Enters enter c g site callee →
    Tells e g none body → e.Returns exit g c site → Tells e c goal rest →
    Tells e c goal (.call site callee enter body exit rest)
  | opened {c g goal : FrameId} {site : CallSite} {callee : FunctionId} {enter : ToldStep}
    {body : Story} : e.Enters enter c g site callee → Tells e g (some goal) body →
    Tells e c (some goal) (.opened site callee enter body)

end Story

/-! ### One step back -/

namespace Exploration

variable {e : Exploration} {scheme : PathScheme} {finding : Finding} {t : Telling} {m n : NodeId}
  {site : CallSite}

theorem foldl_event (events : List EventPiece) (pieces : List PathPiece) :
    events.foldl (fun ps x => PathPiece.event x :: ps) pieces =
      events.reverse.map .event ++ pieces := by
  induction events generalizing pieces with
  | nil => rfl
  | cons x events ih =>
    rw [foldl_cons, ih, reverse_cons, map_append, append_assoc]
    rfl

/-- The events that are told of a step. -/
def stepEvents (e : Exploration) (finding : Finding) (unexplained : List RegionId) (m n : NodeId) :
    List EventPiece :=
  (e.allocationEvent? finding.allocation m n).toList ++ (e.assumptionEvent? m n).toList ++
    ((e.storeEvent? unexplained m n).map (·.2)).toList

/-- The step as it is told. -/
def toldStep (e : Exploration) (finding : Finding) (t : Telling) (m n : NodeId) : ToldStep :=
  ⟨m, n, e.stepEvents finding t.unexplained m n⟩

section

variable (scheme : PathScheme) (finding : Finding) (t : Telling)

theorem tellStep_of_plain (henter : ∀ site callee, (e.graph.point m).kind ≠ .callEnter site callee)
    (hexit : ∀ site, (e.graph.point m).kind ≠ .callExit site) :
    (e.tellStep scheme finding t (m, n)).pieces = (e.toldStep finding t m n).told ++
        ((e.controlPiece? scheme n).toList ++ t.pieces) ∧
      (e.tellStep scheme finding t (m, n)).calls = t.calls := by
  unfold tellStep
  dsimp only
  split
  · next site hkind => exact absurd hkind (hexit site)
  · next site callee hkind => exact absurd hkind (henter site callee)
  · exact ⟨foldl_event _ _, rfl⟩

theorem tellStep_of_exit (n : NodeId) (hkind : (e.graph.point m).kind = .callExit site) :
    (e.tellStep scheme finding t (m, n)).pieces = [] ∧ (e.tellStep scheme finding t (m, n)).calls =
        ⟨(e.toldStep finding t m n).told ++ t.pieces, e.exitEvent m site⟩ :: t.calls := by
  refine ⟨by simp only [tellStep, hkind, enterCallee], ?_⟩
  simp only [tellStep, hkind, enterCallee, foldl_event]
  rfl

theorem tellStep_of_enter (n : NodeId) {callee : FunctionId}
    (hkind : (e.graph.point m).kind = .callEnter site callee) :
    (e.tellStep scheme finding t (m, n)).pieces =
        (e.callShape site callee (e.toldStep finding t m n) (t.calls.head?.map (·.exit))).piece
          ((e.toldStep finding t m n).told ++ t.pieces) :: ((t.calls.head?.map (·.outer)).getD []) ∧
      (e.tellStep scheme finding t (m, n)).calls = t.calls.tail := by
  obtain ⟨pieces, calls, unexplained⟩ := t
  cases calls with
  | nil | cons call calls =>
    simp only [tellStep, hkind, leaveCallee, foldl_event]
    exact ⟨rfl, rfl⟩

end

end Exploration

/-- What was told of the rest of a path, from the frame on: a story to its end, or a story of the called
function, with what comes after each call whose end was met. -/
inductive Retells (e : Exploration) (scheme : PathScheme) (last : List PathPiece) (goal : FrameId) :
    FrameId → List (NodeId × NodeId) → List PathPiece → List Exploration.OpenCall → Prop where
  | plain {f : FrameId} {story : Story} : story.Tells e f (some goal) →
    Retells e scheme last goal f story.steps (story.pieces e scheme last) []
  | inside {f c : FrameId} {site : CallSite} {callee : FunctionId} {depth : Nat} {story : Story}
    {exit : ToldStep} {steps : List (NodeId × NodeId)} {outer : List PathPiece}
    {calls : List Exploration.OpenCall} : story.Tells e f none → e.Returns exit f c site →
    e.frames.frame? f = some ⟨some c, callee, some site, depth⟩ →
    Retells e scheme last goal c steps outer calls →
    Retells e scheme last goal f (story.steps ++ exit.pair :: steps) (story.pieces e scheme [])
      (⟨exit.told ++ outer, e.exitEvent exit.pred site⟩ :: calls)

namespace Retells

variable {e : Exploration} {scheme : PathScheme} {finding : Finding} {t : Exploration.Telling}
  {m n : NodeId} {last : List PathPiece} {goal f c g : FrameId} {steps : List (NodeId × NodeId)}
  {pieces : List PathPiece} {calls : List Exploration.OpenCall} {s : ToldStep} {site : CallSite}
  {callee : FunctionId} {depth : Nat}

theorem cons_step (h : Retells e scheme last goal f steps pieces calls)
    (hpred : (e.graph.point s.pred).frame = f) (hsucc : (e.graph.point s.succ).frame = f)
    (henter : ∀ site callee, (e.graph.point s.pred).kind ≠ .callEnter site callee)
    (hexit : ∀ site, (e.graph.point s.pred).kind ≠ .callExit site) :
    Retells e scheme last goal f (s.pair :: steps)
      (s.told ++ ((e.controlPiece? scheme s.succ).toList ++ pieces)) calls := by
  cases h with
  | plain htells => exact .plain (.step hpred hsucc henter hexit htells)
  | inside htells hreturns hframe hrest =>
    exact .inside (.step hpred hsucc henter hexit htells) hreturns hframe hrest

/-- A call whose end was told goes in front of what comes after it. -/
theorem cons_call {body : Story} {exit : ToldStep} (h : Retells e scheme last goal c steps pieces calls)
    (henters : e.Enters s c g site callee) (hbody : body.Tells e g none)
    (hreturns : e.Returns exit g c site) :
    Retells e scheme last goal c (s.pair :: (body.steps ++ exit.pair :: steps))
      ((e.callShape site callee s (some (e.exitEvent exit.pred site))).piece
        (s.told ++ body.pieces e scheme []) :: (exit.told ++ pieces)) calls := by
  cases h with
  | plain htells => exact .plain (.call henters hbody hreturns htells)
  | @inside _ _ _ _ _ _ exit' steps _ _ htells hreturns' hframe hrest =>
    have hsplit : ∀ rest : Story, s.pair :: (body.steps ++ exit.pair :: (rest.steps ++
        exit'.pair :: steps)) =
          (Story.call site callee s body exit rest).steps ++ exit'.pair :: steps := fun rest => by
      rw [Story.steps, cons_append, append_assoc, cons_append]
    rw [hsplit]
    exact .inside (.call henters hbody hreturns htells) hreturns' hframe hrest

/-- A call goes around what was told of it, which is all if its end was not met. -/
theorem cons_enter (h : Retells e scheme last goal g steps pieces calls)
    (henters : e.Enters s c g site callee) :
    Retells e scheme last goal c (s.pair :: steps)
      ((e.callShape site callee s (calls.head?.map (·.exit))).piece (s.told ++ pieces) ::
        ((calls.head?.map (·.outer)).getD [])) calls.tail := by
  cases h with
  | plain htells => exact .plain (.opened henters htells)
  | inside htells hreturns hframe hrest =>
    obtain ⟨depth, hcalled⟩ := henters.called
    cases hcalled.symm.trans hframe
    exact hrest.cons_call henters htells hreturns

/-- **One step back.** -/
theorem tellStep (h : Retells e scheme last goal (e.graph.point n).frame steps t.pieces t.calls)
    (hmoves : Moves e.frames (e.graph.point m) (e.graph.point n)) :
    Retells e scheme last goal (e.graph.point m).frame ((m, n) :: steps)
      (e.tellStep scheme finding t (m, n)).pieces (e.tellStep scheme finding t (m, n)).calls := by
  cases hmoves with
  | stays hsame henter hexit =>
    obtain ⟨hpieces, hcalls⟩ := Exploration.tellStep_of_plain scheme finding t henter hexit
    rw [hpieces, hcalls]
    rw [hsame] at h
    exact h.cons_step (s := e.toldStep finding t m n) rfl hsame henter hexit
  | climbs hkind hkind' hframe =>
    obtain ⟨hpieces, hcalls⟩ := Exploration.tellStep_of_exit scheme finding t n hkind
    rw [hpieces, hcalls]
    have hreturns : e.Returns (e.toldStep finding t m n) _ _ _ := ⟨hkind, rfl, rfl, hkind'⟩
    exact .inside .finished hreturns hframe h
  | descends hkind hkind' hframe =>
    obtain ⟨hpieces, hcalls⟩ := Exploration.tellStep_of_enter scheme finding t n hkind
    rw [hpieces, hcalls]
    exact h.cons_enter (s := e.toldStep finding t m n) ⟨hkind, rfl, rfl, ⟨_, hkind'⟩, ⟨_, hframe⟩⟩

/-- **All steps back.** -/
theorem tell {way : List NodeId} {start : Exploration.Telling} {x : NodeId}
    (hchain : (n :: way).IsChain fun a b => Moves e.frames (e.graph.point a) (e.graph.point b))
    (hlast : (n :: way).getLast? = some x) (hstart : start.calls = [])
    (ht : ((n :: way).zip way).foldr (fun step t => e.tellStep scheme finding t step) start = t) :
    Retells e scheme start.pieces (e.graph.point x).frame (e.graph.point n).frame ((n :: way).zip way)
      t.pieces t.calls := by
  induction way generalizing n t with
  | nil =>
    cases hlast
    subst ht
    rw [zip_nil_right, foldr_nil, hstart]
    exact .plain .reached
  | cons m way ih =>
    obtain ⟨hmoves, hchain⟩ := isChain_cons_cons.1 hchain
    rw [getLast?_cons_cons] at hlast
    rw [zip_cons_cons, foldr_cons] at ht
    subst ht
    exact (ih hchain hlast rfl).tellStep hmoves

end Retells

/-! ### Explorations -/

namespace Exploration

variable {p : Program} {o : Options} {e : Exploration} {scheme : PathScheme} {finding : Finding}
  {path : List NodeId} {n : NodeId} {root : PathNode}

/-- Nothing called the first frame. -/
theorem Records.not_called_topFrame (h : e.Records p o root) {c : FrameId} {callee : FunctionId}
    {site : CallSite} {depth : Nat} :
    e.frames.frame? topFrame ≠ some ⟨some c, callee, some site, depth⟩ := fun htop => by
  cases h.stacked _ _ htop with
  | called hlt => exact absurd hlt (Nat.not_lt_zero _)

/-- The nodes of a path move between frames. -/
theorem Records.moves (h : e.Records p o root) (hpath : e.graph.Walks path) :
    path.IsChain fun a b => PathScout.Moves e.frames (e.graph.point a) (e.graph.point b) := by
  refine hpath.imp fun a b hab => ?_
  obtain ⟨ha, hb⟩ := h.tracks.linked.exists_nodes hab
  obtain ⟨x, hx⟩ := PathGraph.exists_node? ha
  obtain ⟨y, hy⟩ := PathGraph.exists_node? hb
  rw [PathGraph.point_eq hx, PathGraph.point_eq hy]
  exact (h.tracks.step hab hx hy).edge.moves

/-- **What is told of a path** is a story of it, in which every call that is over was told as a whole. -/
theorem Records.exists_story (h : e.Records p o root) (scheme : PathScheme) (finding : Finding)
    (hroot : root.point.frame = topFrame) (hhead : path.head? = some ⟨0⟩)
    (hlast : path.getLast? = some n) (hpath : e.graph.Walks path) :
    ∃ story : Story, story.Tells e topFrame (some (e.graph.point n).frame) ∧
      story.steps = path.zip path.tail ∧ e.tell scheme finding path =
        story.pieces e scheme [.event ⟨finding.location, finding.description, finding.spans⟩] := by
  cases path with
  | nil => cases hhead
  | cons m way =>
    cases hhead
    unfold tell walkBack
    dsimp only
    rw [foldl_reverse, tail_cons]
    generalize ht : List.foldr _ _ _ = t
    have htold := Retells.tell (h.moves hpath) hlast rfl ht
    rw [PathGraph.point_eq h.tracks.root, hroot] at htold
    generalize List.zip _ way = steps at htold ⊢
    obtain ⟨pieces, calls, unexplained⟩ := t
    dsimp only at htold ⊢
    cases htold with
    | plain htells => exact ⟨_, htells, rfl, rfl⟩
    | inside _ _ hframe => exact absurd hframe h.not_called_topFrame

end Exploration

end PathScout
