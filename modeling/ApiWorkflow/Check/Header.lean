import ApiWorkflow.Check.Problem

/-! # Checking the top of a document -/

namespace ApiWorkflow.Check

open Text

/-- A problem, if a condition holds. -/
def problemIf (condition : Bool) (problem : Problem) : List Problem :=
  if condition then [problem] else []

/-- Problems of the version of a document. -/
def versionProblems (version : String) : List Problem :=
  let version := trimmed version
  if version.isEmpty then [.missing "arazzo"]
  else problemIf (!supportedVersions.contains version) (.unsupportedVersion version)

/-- Problems of the fields at the top of a document. -/
def headerProblems (d : Document) : List Problem :=
  versionProblems d.arazzo ++
    problemIf (isBlankString d.info.title) (.missing "info.title") ++
    problemIf (isBlankString d.info.version) (.missing "info.version") ++
    problemIf d.sourceDescriptions.isEmpty (.missing "sourceDescriptions") ++
    problemIf d.workflows.isEmpty (.missing "workflows")

/-- Problems of the source description at a position, counted from one. -/
def sourceProblems (position : Nat) (s : SourceDescription) : List Problem :=
  let name := trimmed s.name
  let label := if name.isEmpty then SourceLabel.numbered position else .named name
  let kind := trimmed s.kind
  problemIf name.isEmpty (.sourceMissing label "name") ++
    problemIf (isBlankString s.url) (.sourceMissing label "url") ++
    problemIf (!kind.isEmpty && !sourceKinds.contains kind) (.sourceKind label kind)

/-- Problems of source descriptions, the first of which is at a position. -/
def sourcesProblems (position : Nat) : List SourceDescription → List Problem
  | [] => []
  | s :: rest => sourceProblems position s ++ sourcesProblems (position + 1) rest

/-- Problems of the top of a document are shown on its first line. -/
def atTop (problems : List Problem) : List Issue :=
  problems.map fun problem => ⟨0, problem⟩

/-- Check the fields at the top of a document. -/
def header (d : Document) : List Issue :=
  atTop (headerProblems d)

/-- Check the source descriptions of a document. -/
def sources (d : Document) : List Issue :=
  atTop (sourcesProblems 1 d.sourceDescriptions)

end ApiWorkflow.Check
