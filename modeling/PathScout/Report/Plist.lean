import PathScout.Report.Diagnostic

/-!
# Diagnostics as property lists

A property list is written line by line. Every line is indented and holds opening tags, closing
tags and whole elements.

* `Tag`, `Line`: what lines are made of.
* `Plist.escape`: a text without the characters that have a meaning of their own.
* `Plist.ofDiagnostics`: the lines of a document. `Plist.render`: the document.
-/

namespace PathScout

namespace Plist

/-- A part of a line: a tag of an element that spans lines, or a whole element. -/
inductive Tag where
  | opening (name : String)
  | closing (name : String)
  | key (name : String)
  | string (text : String)
  | integer (value : Nat)

/-- A line of a document. -/
structure Line where
  indent : Nat
  tags : List Tag

/-- A character as it is written in a document. -/
def escapeChar : Char → List Char
  | '&' => "&amp;".toList
  | '<' => "&lt;".toList
  | '>' => "&gt;".toList
  | '\'' => "&apos;".toList
  | '"' => "&quot;".toList
  | c => [c]

/-- A text as it is written in a document. -/
def escape (s : String) : String := String.ofList (s.toList.flatMap escapeChar)

/-- An element with a text in it. -/
def element (name content : String) : String :=
  "<" ++ name ++ ">" ++ content ++ "</" ++ name ++ ">"

/-- A tag as it is written. -/
def Tag.text : Tag → String
  | opening name => "<" ++ name ++ ">"
  | closing name => "</" ++ name ++ ">"
  | key name => element "key" name
  | string s => element "string" (escape s)
  | integer n => element "integer" (toString n)

/-- A line as it is written. -/
def Line.text (l : Line) : String :=
  String.ofList (List.replicate l.indent ' ') ++ String.join (l.tags.map (·.text)) ++ "\n"

/-- Some lines as the contents of an element. -/
def wrap (indent : Nat) (name : String) (lines : List Line) : List Line :=
  ⟨indent, [.opening name]⟩ :: lines ++ [⟨indent, [.closing name]⟩]

/-- A position in a file. -/
def location (file indent : Nat) (l : Location) : List Line :=
  wrap indent "dict" [
    ⟨indent + 1, [.key "line", .integer l.line]⟩,
    ⟨indent + 1, [.key "col", .integer l.column]⟩,
    ⟨indent + 1, [.key "file", .integer file]⟩]

/-- A piece of a file. -/
def span (file indent : Nat) (s : Span) : List Line :=
  wrap indent "array" (location file (indent + 1) s.first ++ location file (indent + 1) s.last)

/-- A jump. -/
def edge (file indent : Nat) (e : ControlEdge) : List Line :=
  wrap indent "dict" (
    ⟨indent + 1, [.key "start"]⟩ :: span file (indent + 2) e.start ++
    ⟨indent + 1, [.key "end"]⟩ :: span file (indent + 2) e.stop)

/-- Jumps with something to say. -/
def control (file indent : Nat) (edges : List ControlEdge) (message : String) : List Line :=
  wrap indent "dict" (
    [⟨indent + 1, [.key "kind", .string "control"]⟩, ⟨indent + 1, [.key "edges"]⟩] ++
    wrap (indent + 2) "array" (edges.flatMap (edge file (indent + 3))) ++
    if message.isEmpty then [] else [⟨indent + 1, [.key "alternate", .string message]⟩])

/-- An event. -/
def event (file indent depth : Nat) (e : EventPiece) : List Line :=
  wrap indent "dict" (
    [⟨indent + 1, [.key "kind", .string "event"]⟩, ⟨indent + 1, [.key "location"]⟩] ++
    location file (indent + 1) e.location ++
    (if e.spans.isEmpty then []
      else ⟨indent + 1, [.key "ranges"]⟩ ::
        wrap (indent + 1) "array" (e.spans.flatMap (span file (indent + 3)))) ++
    [⟨indent + 1, [.key "depth", .integer depth]⟩,
      ⟨indent + 1, [.key "extended_message"]⟩,
      ⟨indent + 1, [.string e.message]⟩,
      ⟨indent + 1, [.key "message"]⟩,
      ⟨0, [.string e.message]⟩])

mutual

/-- A piece of a path. At the use of a defined name its jumps are left out. -/
def piece (file indent depth : Nat) (jumps : Bool) : PathPiece → List Line
  | .control edges message => if jumps then control file indent edges message else []
  | .event e => event file indent depth e
  | .call _ enter within path exit =>
    enter.toList.flatMap (event file indent depth) ++
      within.toList.flatMap (event file indent (depth + 1)) ++
      pieces file indent (depth + 1) true path ++
      exit.toList.flatMap (event file indent (depth + 1))
  | .expansion _ _ parts => pieces file indent depth false parts

/-- Pieces of a path. -/
def pieces (file indent depth : Nat) (jumps : Bool) : List PathPiece → List Line
  | [] => []
  | p :: rest => piece file indent depth jumps p ++ pieces file indent depth jumps rest

end

/-- A diagnostic of a file. -/
def diagnostic (file : Nat) (d : Diagnostic) : List Line :=
  let context : List Line := match d.context with
    | none => []
    | some c =>
      [⟨2, [.key "issue_context_kind", .string c.kind]⟩,
        ⟨2, [.key "issue_context", .string c.name]⟩]
  wrap 2 "dict" (
    ⟨3, [.key "path"]⟩ :: wrap 3 "array" (pieces file 4 0 true d.path) ++
    [⟨3, [.key "description", .string d.description]⟩,
      ⟨3, [.key "category", .string d.type.category]⟩,
      ⟨3, [.key "type", .string d.type.name]⟩] ++
    context ++ ⟨2, [.key "location"]⟩ :: location file 2 d.location)

/-- The files of diagnostics, in the order in which they first occur. -/
def files (ds : List Diagnostic) : List String := (ds.map (·.file)).eraseDups

/-- The number of a file. -/
def fileIndex (names : List String) (name : String) : Nat := (names.idxOf? name).getD 0

/-- The lines of a document. -/
def ofDiagnostics (ds : List Diagnostic) : List Line :=
  let names := files ds
  wrap 0 "dict" (
    ⟨1, [.key "files"]⟩ :: wrap 1 "array" (names.map fun s => ⟨2, [.string s]⟩) ++
    ⟨1, [.key "diagnostics"]⟩ ::
      wrap 1 "array" (ds.flatMap fun d => diagnostic (fileIndex names d.file) d))

/-- What stands before the lines of a document. -/
def header : String :=
  "<?xml version=\"1.0\" encoding=\"UTF-8\"?>\n" ++
  "<!DOCTYPE plist PUBLIC \"-//Apple Computer//DTD PLIST 1.0//EN\" " ++
  "\"http://www.apple.com/DTDs/PropertyList-1.0.dtd\">\n<plist version=\"1.0\">\n"

/-- Diagnostics as a document. -/
def render (ds : List Diagnostic) : String :=
  header ++ String.join ((ofDiagnostics ds).map (·.text)) ++ "</plist>"

end Plist

end PathScout
