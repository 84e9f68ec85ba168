import PathScout.Exploration.Step
import PathScout.Lowering.Unit
import PathScout.Report.Consumer
import PathScout.Report.Narrative
import PathScout.Tree.Reader

/-!
# Analysis of a source text

Every function with a body is explored on its own. The diagnostics of all of them are gathered in
the order of the functions, one for each issue.

* `analyzeProgram`, `analyzeSource`: the analysis of a program and of a source text.
* `Analysis.plist`, `Analysis.write`: its diagnostics as documents.
-/

namespace PathScout

/-- What an analysis found, where it was not complete, and how paths are told. -/
structure Analysis where
  diagnostics : Diagnostics
  coverage : List CoverageNote
  scheme : PathScheme

/-- The diagnostics as a property list. -/
def Analysis.plist (a : Analysis) : String := Plist.render a.diagnostics

/-- The diagnostics as they are handed on in some form. -/
def Analysis.write (a : Analysis) (form : PathScheme → Consumer) : String :=
  (form a.scheme).render a.diagnostics

/-- Why an analysis fails. -/
inductive AnalysisError where
  | parse (e : ParseError)
  | semantic (e : SemanticError)
  | exploration (e : ExplorationError)

/-- The text of an error. -/
def AnalysisError.message : AnalysisError → String
  | parse e => e.message
  | semantic e => e.message
  | exploration e => e.message

/-- Explores every function with a body. -/
def analyzeProgram (o : Options) (p : Program) : Except ExplorationError Analysis := do
  let explored ← p.definedFunctions.mapM (explore o p)
  return {
    diagnostics := .collect (explored.flatMap (·.diagnostics o.pathScheme))
    coverage := explored.flatMap (·.coverage)
    scheme := o.pathScheme }

/-- The program of a source text. -/
def Program.ofSource (source file : String) : Except AnalysisError Program := do
  let unit ← (SourceUnit.ofText source).mapError .parse
  (Program.ofUnit unit file).mapError .semantic

/-- Explores every function of a source text. -/
def analyzeSource (o : Options) (source file : String) : Except AnalysisError Analysis := do
  let program ← Program.ofSource source file
  (analyzeProgram o program).mapError .exploration

end PathScout
