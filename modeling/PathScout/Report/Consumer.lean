import PathScout.Options
import PathScout.Report.Listing
import PathScout.Report.Plist

/-!
# Handing diagnostics on

* `Consumer`: the forms in which diagnostics are handed on.
* `Consumer.render`: what is written when all diagnostics were handed on. However often an issue was
  met, it is told once.
-/

namespace PathScout

/-- The forms in which diagnostics are handed on: as a property list, as text, or as they are. -/
inductive Consumer where
  | plist
  | text (scheme : PathScheme)
  | collector (scheme : PathScheme)

namespace Consumer

/-- The name of a form. -/
def name : Consumer → String
  | plist => "plist"
  | text _ => "text"
  | collector _ => "collector"

/-- How much of a path the form tells. Property lists tell everything. -/
def scheme : Consumer → PathScheme
  | plist => .extensive
  | text s | collector s => s

/-- What is written of diagnostics that are handed on one after the other. -/
def render (c : Consumer) (ds : List Diagnostic) : String :=
  match c with
  | plist => Plist.render (Diagnostics.collect ds)
  | text _ => (Diagnostics.collect ds).listing
  | collector _ => ""

end Consumer

end PathScout
