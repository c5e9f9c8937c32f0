import ApiWorkflow.Catalog
import ApiWorkflow.Check.Problem
import ApiWorkflow.Command.Arguments

/-! # What the command line prints

Lines are counted from one, as editors show them.
-/

namespace ApiWorkflow

def Finding.json (f : Finding) : Json :=
  .object [("line", .int f.line), ("column", .int f.column), ("message", .string f.message),
    ("severity", .string f.severity.name)]

namespace Report

/-- Lines of text, each with its end. -/
def unlines (lines : List String) : String :=
  String.join (lines.map (· ++ "\n"))

/-- A JSON value over several lines. -/
def ofJson (value : Json) : String :=
  unlines [value.spread]

/-- How many findings are errors. -/
def errorCount (findings : List Finding) : Nat :=
  findings.countP Finding.isError

def findingLine (file : String) (f : Finding) : String :=
  file ++ ":" ++ toString (f.line + 1) ++ ": " ++ f.severity.name ++ ": " ++ f.message

/-- The findings of a document. -/
def findings (format : OutputFormat) (file : String) (findings : List Finding) : String :=
  let errors := errorCount findings
  let warnings := findings.length - errors
  match format with
  | .json => ofJson (.object [("file", .string file), ("errors", .int errors),
      ("warnings", .int warnings), ("findings", .ofList Finding.json findings)])
  | .text => unlines (findings.map (findingLine file) ++
      [toString errors ++ " error(s), " ++ toString warnings ++ " warning(s)"])

def operationLine (o : Operation) : String :=
  "- " ++ o.operationId ++ " " ++ o.method ++ " " ++ o.path ++ " (" ++ o.fileName ++ ":" ++
    toString (o.line + 1) ++ ")"

def reportLine (r : IndexReport) : String :=
  "Indexed " ++ toString r.indexed ++ " of " ++ toString r.discovered ++
    " API description(s), " ++ toString r.failed ++ " failed, " ++ toString r.operations ++
    " operation(s)."

/-- The operations near a document. -/
def index (format : OutputFormat) (report : IndexReport) (operations : List Operation) : String :=
  match format with
  | .json => ofJson (.object [("report", report.json),
      ("operations", .ofList Operation.json operations)])
  | .text => unlines (reportLine report :: operations.map operationLine)

/-- An operation. -/
def operation (format : OutputFormat) (o : Operation) : String :=
  match format with
  | .json => ofJson o.json
  | .text =>
    let summary := if o.summary.isEmpty then [] else ["  summary: " ++ o.summary]
    let tags := if o.tags.isEmpty then [] else ["  tags: " ++ ", ".intercalate o.tags]
    unlines (operationLine o :: summary ++ tags)

end Report

end ApiWorkflow
