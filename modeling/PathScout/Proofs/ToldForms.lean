import Mathlib
import PathScout.Proofs.PlistDocuments
import PathScout.Report.Listing

/-!
# What the forms of a diagnostic tell

A diagnostic is written as a property list and as text, and its events, its messages and its size are asked
for. All of these are read off the leaves of its path: the events and jumps in the order in which they stand,
each with the calls and the uses of defined names around it.

* `PathLeaf`, `PathPiece.leaves`: the leaves of a piece. `PathLeaf.isShown`: is a leaf written in a document?
* `events_eq`, `messages_eq`, `sizes_eq`: events, messages and size by leaves.
* `Plist.Element.event?`, `Plist.Element.jump?`: an event and a jump, read from a document.
* `ofPieces_eq`: the path of a document by leaves.
* `Diagnostic.forms_agree`: all forms of a diagnostic tell the same.
-/

namespace PathScout

open List

/-! ### Leaves -/

/-- What a piece of a path may lie in: a call, or the use of a defined name. -/
inductive Surrounding where
  | call
  | expansion
deriving DecidableEq

/-- An event or a jump with what it lies in, innermost first. -/
inductive PathLeaf where
  | event (around : List Surrounding) (event : EventPiece)
  | jump (around : List Surrounding) (edges : List ControlEdge) (message : String)

/-- Is there a use of a defined name around, without a call in between? -/
def Surrounding.hides (around : List Surrounding) : Bool :=
  (around.takeWhile (· ≠ .call)).contains .expansion

namespace PathLeaf

/-- The event, with the number of calls around it. -/
def event? : PathLeaf → Option (Nat × EventPiece)
  | event around e => some (around.count .call, e)
  | jump .. => none

/-- The jump. -/
def jump? : PathLeaf → Option (List ControlEdge × String)
  | event .. => none
  | jump _ edges message => some (edges, message)

/-- What is said at the leaf. A jump may say nothing. -/
def message? : PathLeaf → Option String
  | event _ e => some e.message
  | jump _ _ message => if message = "" then none else some message

/-- Is the leaf written in a document? Jumps at the use of a defined name are not. -/
def isShown : PathLeaf → Bool
  | event .. => true
  | jump around _ _ => !Surrounding.hides around

end PathLeaf

namespace PathPiece

mutual

/-- The leaves of a piece that lies in some others. A call is entered from outside; what is told of its entrance
from within and of its end lies in it. -/
def leaves (around : List Surrounding) : PathPiece → List PathLeaf
  | event e => [.event around e]
  | control edges message => [.jump around edges message]
  | call _ enter within path exit =>
    enter.toList.map (.event around) ++ within.toList.map (.event (.call :: around)) ++
      leavesIn (.call :: around) path ++ exit.toList.map (.event (.call :: around))
  | expansion _ _ pieces => leavesIn (.expansion :: around) pieces

/-- The leaves of some pieces. -/
def leavesIn (around : List Surrounding) : List PathPiece → List PathLeaf
  | [] => []
  | p :: rest => leaves around p ++ leavesIn around rest

end

end PathPiece

/-- The leaves of a path. -/
def Diagnostic.leaves (d : Diagnostic) : List PathLeaf := PathPiece.leavesIn [] d.path

/-! ### Events, messages and size -/

namespace PathPiece

theorem filterMap_event?_option (around : List Surrounding) (x : Option EventPiece) :
    (x.toList.map (PathLeaf.event around)).filterMap PathLeaf.event? =
      x.toList.map (around.count .call, ·) := by
  cases x <;> rfl

theorem filterMap_message?_option (around : List Surrounding) (x : Option EventPiece) :
    (x.toList.map (PathLeaf.event around)).filterMap PathLeaf.message? = x.toList.map (·.message) := by
  cases x <;> rfl

mutual

theorem events_eq_leaves (around : List Surrounding) (p : PathPiece) :
    events (around.count .call) p = (leaves around p).filterMap PathLeaf.event? := by
  cases p with
  | event e | control edges message => rw [events, leaves]; rfl
  | call site enter within path exit =>
    have hpath := eventsIn_eq_leaves (.call :: around) path
    rw [count_cons_self] at hpath
    simp only [events, leaves, filterMap_append, filterMap_event?_option, count_cons_self, hpath]
  | expansion l name pieces =>
    have hpieces := eventsIn_eq_leaves (.expansion :: around) pieces
    rw [count_cons_of_ne (by decide)] at hpieces
    rw [events, leaves, hpieces]

theorem eventsIn_eq_leaves (around : List Surrounding) (ps : List PathPiece) :
    eventsIn (around.count .call) ps = (leavesIn around ps).filterMap PathLeaf.event? := by
  cases ps with
  | nil => rw [eventsIn, leavesIn, filterMap_nil]
  | cons p rest =>
    rw [eventsIn, leavesIn, filterMap_append, events_eq_leaves around p, eventsIn_eq_leaves around rest]

end

mutual

theorem messages_eq_leaves (around : List Surrounding) (p : PathPiece) :
    messages p = (leaves around p).filterMap PathLeaf.message? := by
  cases p with
  | event e => rw [messages, leaves]; rfl
  | control edges message =>
    by_cases hm : message = "" <;> simp [messages, leaves, PathLeaf.message?, hm]
  | call site enter within path exit =>
    simp only [messages, leaves, filterMap_append, filterMap_message?_option,
      messagesIn_eq_leaves (.call :: around) path]
  | expansion l name pieces => rw [messages, leaves, messagesIn_eq_leaves (.expansion :: around) pieces]

theorem messagesIn_eq_leaves (around : List Surrounding) (ps : List PathPiece) :
    messagesIn ps = (leavesIn around ps).filterMap PathLeaf.message? := by
  cases ps with
  | nil => rw [messagesIn, leavesIn, filterMap_nil]
  | cons p rest =>
    rw [messagesIn, leavesIn, filterMap_append, messages_eq_leaves around p,
      messagesIn_eq_leaves around rest]

end

mutual

theorem size_eq_leaves (around : List Surrounding) (p : PathPiece) : size p = (leaves around p).length := by
  cases p with
  | event e | control edges message => rw [size, leaves]; rfl
  | call site enter within path exit =>
    simp only [size, leaves, length_append, length_map, sizes_eq_leaves (.call :: around) path]
  | expansion l name pieces => rw [size, leaves, sizes_eq_leaves (.expansion :: around) pieces]

theorem sizes_eq_leaves (around : List Surrounding) (ps : List PathPiece) :
    sizes ps = (leavesIn around ps).length := by
  cases ps with
  | nil => rw [sizes, leavesIn, length_nil]
  | cons p rest =>
    rw [sizes, leavesIn, length_append, size_eq_leaves around p, sizes_eq_leaves around rest]

end

end PathPiece

/-- A leaf is an event or a jump. -/
theorem PathLeaf.length_eq (leaves : List PathLeaf) :
    leaves.length = (leaves.filterMap event?).length + (leaves.filterMap jump?).length := by
  induction leaves with
  | nil => rfl
  | cons leaf leaves ih =>
    cases leaf with
    | event around e | jump around edges message =>
      simp only [filterMap_cons, event?, jump?, length_cons, ih]
      omega

/-! ### Reading documents -/

namespace Plist

namespace Element

/-- The number that an element is. -/
def number? : Element → Option Nat
  | integer n => some n
  | _ => none

/-- The text that an element is. -/
def text? : Element → Option String
  | string s => some s
  | _ => none

/-- The position that an element gives. -/
def location? (e : Element) : Option Location := do
  return ⟨← (← e.at? "line").number?, ← (← e.at? "col").number?⟩

/-- The piece of source that an element gives by its ends. -/
def span? (e : Element) : Option Span := do
  match ← e.items? with
  | [first, last] => return ⟨← first.location?, ← last.location?⟩
  | _ => none

/-- The two ends of a jump. -/
def edge? (e : Element) : Option ControlEdge := do
  return ⟨← (← e.at? "start").span?, ← (← e.at? "end").span?⟩

/-- Is the element of the given kind? -/
def isKind (kind : String) (e : Element) : Bool := (e.at? "kind").bind text? == some kind

/-- The event that an element tells, with its depth. Its message is given twice. -/
def event? (e : Element) : Option (Nat × EventPiece) := do
  let depth ← (← e.at? "depth").number?
  let location ← (← e.at? "location").location?
  let message ← (← e.at? "message").text?
  let extended ← (← e.at? "extended_message").text?
  let spans ← match e.at? "ranges" with
    | none => some []
    | some ranges => do (← ranges.items?).mapM span?
  if extended = message then return (depth, ⟨location, message, spans⟩) else none

/-- The jump that an element tells. -/
def jump? (e : Element) : Option (List ControlEdge × String) := do
  let edges ← (← (← e.at? "edges").items?).mapM edge?
  let message ← match e.at? "alternate" with
    | none => some ""
    | some message => message.text?
  return (edges, message)

theorem mapM_map {α : Type} {element : α → Element} {part? : Element → Option α}
    (h : ∀ x, part? (element x) = some x) (xs : List α) : (xs.map element).mapM part? = some xs := by
  induction xs with
  | nil => rfl
  | cons x xs ih => simp [mapM_cons, h, ih]

theorem location?_ofLocation (file : Nat) (l : Location) : (ofLocation file l).location? = some l := by
  simp [ofLocation, location?, at?, List.lookup, number?]

theorem span?_ofSpan (file : Nat) (s : Span) : (ofSpan file s).span? = some s := by
  simp [ofSpan, span?, items?, location?_ofLocation]

theorem edge?_ofEdge (file : Nat) (e : ControlEdge) : (ofEdge file e).edge? = some e := by
  simp [ofEdge, edge?, at?, List.lookup, span?_ofSpan]

theorem jump?_ofControl (file : Nat) (edges : List ControlEdge) (message : String) :
    (ofControl file edges message).jump? = some (edges, message) := by
  by_cases hm : message = "" <;>
    simp [ofControl, jump?, at?, List.lookup, items?, text?, hm, mapM_map (edge?_ofEdge file)]

theorem event?_ofEvent (file depth : Nat) (e : EventPiece) :
    (ofEvent file depth e).event? = some (depth, e) := by
  obtain ⟨location, message, spans⟩ := e
  cases spans with
  | nil => simp [ofEvent, event?, at?, List.lookup, text?, number?, location?_ofLocation]
  | cons s spans =>
    have hspans := mapM_map (span?_ofSpan file) (s :: spans)
    simp [ofEvent, event?, at?, List.lookup, text?, number?, items?, location?_ofLocation] at hspans ⊢
    simp [hspans]

theorem isKind_ofControl (file : Nat) (edges : List ControlEdge) (message kind : String) :
    (ofControl file edges message).isKind kind = ("control" == kind) := by
  simp [ofControl, isKind, at?, List.lookup, text?]

theorem isKind_ofEvent (file depth : Nat) (e : EventPiece) (kind : String) :
    (ofEvent file depth e).isKind kind = ("event" == kind) := by
  simp [ofEvent, isKind, at?, List.lookup, text?]

/-! ### Documents and leaves -/

/-- A leaf as it is written in a document. -/
def ofLeaf (file : Nat) : PathLeaf → Element
  | .event around e => ofEvent file (around.count .call) e
  | .jump _ edges message => ofControl file edges message

theorem map_ofLeaf_option (file : Nat) (around : List Surrounding) (x : Option EventPiece) :
    ((x.toList.map (PathLeaf.event around)).filter PathLeaf.isShown).map (ofLeaf file) =
      x.toList.map (ofEvent file (around.count .call)) := by
  cases x <;> rfl

theorem hides_call (around : List Surrounding) : Surrounding.hides (.call :: around) = false := rfl

theorem hides_expansion (around : List Surrounding) : Surrounding.hides (.expansion :: around) = true := by
  simp [Surrounding.hides]

mutual

theorem ofPiece_eq (file : Nat) (around : List Surrounding) (p : PathPiece) :
    ofPiece file (around.count .call) (!Surrounding.hides around) p =
      ((p.leaves around).filter PathLeaf.isShown).map (ofLeaf file) := by
  cases p with
  | event e => rw [ofPiece, PathPiece.leaves]; rfl
  | control edges message =>
    cases h : Surrounding.hides around <;> simp [ofPiece, PathPiece.leaves, PathLeaf.isShown, ofLeaf, h]
  | call site enter within path exit =>
    have hpath := ofPieces_eq file (.call :: around) path
    rw [count_cons_self, hides_call] at hpath
    rw [ofPiece, PathPiece.leaves]
    simp only [filter_append, map_append, map_ofLeaf_option, count_cons_self, ← hpath]
    rfl
  | expansion l name parts =>
    have hparts := ofPieces_eq file (.expansion :: around) parts
    rw [count_cons_of_ne (by decide), hides_expansion] at hparts
    rw [ofPiece, PathPiece.leaves, ← hparts]
    rfl

/-- **The path of a document**: its leaves, but for the jumps at the uses of defined names. -/
theorem ofPieces_eq (file : Nat) (around : List Surrounding) (ps : List PathPiece) :
    ofPieces file (around.count .call) (!Surrounding.hides around) ps =
      ((PathPiece.leavesIn around ps).filter PathLeaf.isShown).map (ofLeaf file) := by
  cases ps with
  | nil => rw [ofPieces, PathPiece.leavesIn]; rfl
  | cons p rest =>
    rw [ofPieces, PathPiece.leavesIn, filter_append, map_append, ofPiece_eq file around p,
      ofPieces_eq file around rest]

end

/-- The elements of the leaves that are events give these events. -/
theorem events_of_leaves (file : Nat) (leaves : List PathLeaf) :
    (((leaves.filter PathLeaf.isShown).map (ofLeaf file)).filter (isKind "event")).map event? =
      (leaves.filterMap PathLeaf.event?).map some := by
  induction leaves with
  | nil => rfl
  | cons leaf leaves ih =>
    cases leaf with
    | event around e =>
      simp [filter_cons, PathLeaf.isShown, ofLeaf, isKind_ofEvent, event?_ofEvent, PathLeaf.event?, ih]
    | jump around edges message =>
      cases h : Surrounding.hides around <;>
        simp [filterMap_cons, PathLeaf.isShown, ofLeaf, isKind_ofControl, PathLeaf.event?, h, ih]

/-- The elements of the leaves that are jumps give those jumps that are shown. -/
theorem jumps_of_leaves (file : Nat) (leaves : List PathLeaf) :
    (((leaves.filter PathLeaf.isShown).map (ofLeaf file)).filter (isKind "control")).map jump? =
      ((leaves.filter PathLeaf.isShown).filterMap PathLeaf.jump?).map some := by
  induction leaves with
  | nil => rfl
  | cons leaf leaves ih =>
    cases leaf with
    | event around e =>
      simp [filter_cons, filterMap_cons, PathLeaf.isShown, ofLeaf, isKind_ofEvent, PathLeaf.jump?, ih]
    | jump around edges message =>
      cases h : Surrounding.hides around <;>
        simp [PathLeaf.isShown, ofLeaf, isKind_ofControl, jump?_ofControl, PathLeaf.jump?, h, ih]

theorem isKind_of_mem_leaves {file : Nat} {leaves : List PathLeaf} {e : Element}
    (h : e ∈ leaves.map (ofLeaf file)) : e.isKind "event" ∨ e.isKind "control" := by
  obtain ⟨leaf, -, rfl⟩ := mem_map.1 h
  cases leaf with
  | event around e => exact .inl (by simp [ofLeaf, isKind_ofEvent])
  | jump around edges message => exact .inr (by simp [ofLeaf, isKind_ofControl])

end Element

end Plist

/-- **All forms of a diagnostic tell the same.** In a document of some diagnostics each has a path of events and
jumps: the events are those of the diagnostic, with depth, place and message, and the jumps are those leaves
of the path that do not lie in the use of a defined name without a call in between. As text each of the same
events has a line, indented by its depth. The messages are those of all leaves in their order, without the
jumps that say nothing, and the size is the number of leaves. -/
theorem Diagnostic.forms_agree (ds : List Diagnostic) :
    ∃ (e : Plist.Element) (items : List Plist.Element),
      Plist.read? (Plist.render ds) = some e ∧ e.at? "diagnostics" = some (.array items) ∧
      List.Forall₂ (fun item d =>
        (∃ path, item.at? "path" = some (.array path) ∧
          (∀ x ∈ path, x.isKind "event" ∨ x.isKind "control") ∧
          (path.filter (·.isKind "event")).map (·.event?) = d.events.map some ∧
          (path.filter (·.isKind "control")).map (·.jump?) =
            ((d.leaves.filter (·.isShown)).filterMap (·.jump?)).map some) ∧
        d.events = d.leaves.filterMap (·.event?) ∧
        d.listing = d.file ++ ":" ++ d.location.text ++ ": warning: " ++ d.description ++ " [" ++
          d.type.category ++ "]\n" ++ String.join (d.events.map fun (depth, e) =>
            String.ofList (List.replicate (2 + 2 * depth) ' ') ++ d.file ++ ":" ++ e.location.text ++
              ": note: " ++ e.message ++ "\n") ∧
        d.messages = d.leaves.filterMap (·.message?) ∧
        d.size = d.leaves.length ∧
        d.size = d.events.length + (d.leaves.filterMap (·.jump?)).length) items ds := by
  refine ⟨_, _, Plist.read?_render ds, rfl, ?_⟩
  rw [forall₂_map_left_iff, forall₂_same]
  intro d hd
  have hevents : d.events = d.leaves.filterMap (·.event?) := PathPiece.eventsIn_eq_leaves [] d.path
  have hsize : d.size = d.leaves.length := PathPiece.sizes_eq_leaves [] d.path
  refine ⟨⟨_, rfl, ?_⟩, hevents, rfl, PathPiece.messagesIn_eq_leaves [] d.path, hsize, ?_⟩
  · have hpath := Plist.Element.ofPieces_eq (Plist.fileIndex (Plist.files ds) d.file) [] d.path
    rw [show Plist.Element.ofPieces _ 0 true d.path = _ from hpath]
    exact ⟨fun x hx => Plist.Element.isKind_of_mem_leaves hx,
      (Plist.Element.events_of_leaves _ _).trans (by rw [hevents]; rfl), Plist.Element.jumps_of_leaves _ _⟩
  · rw [hsize, hevents]
    exact PathLeaf.length_eq d.leaves

/-- A call at the use of a defined name, with a jump before it, a jump in it and an event at its end. -/
def nestedDiagnostic : Diagnostic where
  file := "a.c"
  type := ⟨"Division by zero", "Logic error"⟩
  description := "Division by zero"
  location := ⟨3, 5⟩
  context := none
  path := [.expansion ⟨2, 1⟩ "CHECK" [.control [] "Taking true branch",
    .call ⟨2, 1⟩ (some ⟨⟨2, 1⟩, "Calling", []⟩) none [.control [] "Looping back", .event ⟨⟨3, 5⟩, "Division", []⟩]
      none]]

theorem Diagnostic.forms_agree_nested :
    ∃ (item : Plist.Element) (path : List Plist.Element), item.at? "path" = some (.array path) ∧
      (path.filter (·.isKind "event")).map (·.event?) =
        [some (0, ⟨⟨2, 1⟩, "Calling", []⟩), some (1, ⟨⟨3, 5⟩, "Division", []⟩)] ∧
      (path.filter (·.isKind "control")).map (·.jump?) = [some ([], "Looping back")] ∧
      nestedDiagnostic.messages = ["Taking true branch", "Calling", "Looping back", "Division"] ∧
      nestedDiagnostic.size = 4 := by
  obtain ⟨e, items, -, -, hitems⟩ := forms_agree [nestedDiagnostic]
  cases hitems with
  | cons h =>
    obtain ⟨⟨path, hpath, -, hevents, hjumps⟩, -, -, hmessages, hsize, -⟩ := h
    exact ⟨_, path, hpath, hevents.trans rfl, hjumps.trans rfl, hmessages.trans rfl, hsize.trans rfl⟩

end PathScout
