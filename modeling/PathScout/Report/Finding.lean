import PathScout.PathGraph
import PathScout.Slots

/-!
# Findings

* `Finding`: a defect as a checker describes it. `BugReport`: a finding and the node it was made at.
* `Profile`: what makes two reports the same issue.
* `Reports`: the reports so far, gathered by issue in the order in which issues were first met.
* `Reporter`: the same with an index of the issues. `Reporter.emit`: one more report.
-/

namespace PathScout

/-- A kind of defect. -/
structure BugType where
  name : String
  category : String
deriving DecidableEq, Hashable

/-- A defect as it is described where it is found. -/
structure Finding where
  type : BugType
  description : String
  location : Location
  spans : List Span := []
  /-- The variables whose history explains the defect. -/
  regions : List RegionId := []
  /-- The allocated memory whose history explains the defect. -/
  allocation : Option SymbolId := none

/-- What makes two findings the same issue: kind, description and place. -/
structure Profile where
  type : BugType
  description : String
  location : Location
deriving DecidableEq, Hashable

/-- The issue that a finding belongs to. -/
def Finding.profile (f : Finding) : Profile := ⟨f.type, f.description, f.location⟩

/-- A finding at a node. -/
structure BugReport where
  finding : Finding
  node : NodeId

/-- The reports of one issue, in the order in which they were made. -/
structure ReportClass where
  profile : Profile
  reports : List BugReport

/-- The reports of an issue with one more, which may be the first. -/
def ReportClass.joined (r : BugReport) : Option ReportClass → ReportClass
  | some c => { c with reports := c.reports ++ [r] }
  | none => ⟨r.finding.profile, [r]⟩

theorem ReportClass.profile_joined (r : BugReport) (o : Option ReportClass)
    (h : ∀ c ∈ o, c.profile = r.finding.profile) : (joined r o).profile = r.finding.profile := by
  cases o with
  | none => rfl
  | some c => exact h c rfl

/-- Reports by issue. -/
abbrev Reports := List ReportClass

namespace Reports

/-- Adds a report to its issue, or as a new issue at the end. -/
def add (r : BugReport) : Reports → Reports
  | [] => [⟨r.finding.profile, [r]⟩]
  | c :: rest =>
    if c.profile = r.finding.profile then { c with reports := c.reports ++ [r] } :: rest
    else c :: add r rest

/-- The number of reports. -/
def count (rs : Reports) : Nat := rs.foldl (fun n c => n + c.reports.length) 0

end Reports

/-- Gathers reports by issue. -/
abbrev Reporter := Slots ReportClass.profile

/-- The reporter after a report, which joins those of its issue. -/
def Reporter.emit (t : Reporter) (r : BugReport) : Reporter :=
  t.alter r.finding.profile (.joined r) (ReportClass.profile_joined r)

end PathScout
