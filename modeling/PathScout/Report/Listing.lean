import PathScout.Report.Diagnostic

/-!
# Diagnostics as text

* `Diagnostic.listing`: a line for the defect, and a line for each event on the way to it, indented
  by the calls around it.
* `Diagnostics.listing`: all diagnostics.
-/

namespace PathScout

namespace Diagnostic

/-- The line for an event. -/
def note (d : Diagnostic) (depth : Nat) (e : EventPiece) : String :=
  String.ofList (List.replicate (2 + 2 * depth) ' ') ++ d.file ++ ":" ++ e.location.text ++
    ": note: " ++ e.message ++ "\n"

/-- A diagnostic as lines of text. -/
def listing (d : Diagnostic) : String :=
  d.file ++ ":" ++ d.location.text ++ ": warning: " ++ d.description ++ " [" ++ d.type.category ++
    "]\n" ++ String.join (d.events.map fun (depth, e) => d.note depth e)

end Diagnostic

/-- Diagnostics as text, one after the other. -/
def Diagnostics.listing (ds : Diagnostics) : String := String.join (ds.map (·.listing))

end PathScout
