import ApiWorkflow.Document.Model

/-! # Problems of a document

What may be wrong with a document, by its cause. A finding is a problem as it is
shown: its line, its message, and how bad it is.
-/

namespace ApiWorkflow

/-- How bad a problem is. -/
inductive Severity where
  | error
  | warning
  deriving Repr, DecidableEq, Inhabited

def Severity.name : Severity → String
  | .error => "error"
  | .warning => "warning"

/-- The versions of the notation that are known. -/
def supportedVersions : List String := ["1.0.0", "1.0.1"]

/-- The kinds of source descriptions. -/
def sourceKinds : List String := ["openapi", "arazzo"]

/-- A source description by its name, or by its position, counted from one. -/
inductive SourceLabel where
  | named (name : String)
  | numbered (position : Nat)
  deriving Repr, DecidableEq, Inhabited

def SourceLabel.text : SourceLabel → String
  | .named name => "'" ++ name ++ "'"
  | .numbered position => "#" ++ toString position

/-- What may be wrong with a document. -/
inductive Problem where
  /-- A field at the top of the document is missing. -/
  | missing (field : String)
  | unsupportedVersion (version : String)
  | sourceMissing (source : SourceLabel) (field : String)
  | sourceKind (source : SourceLabel) (kind : String)
  | workflowIdMissing
  | duplicateWorkflow (id : String)
  | noSteps (workflow : String)
  | stepIdMissing (workflow : String)
  | duplicateStep (id workflow : String)
  /-- A step names nothing to run. -/
  | noTarget (step : String)
  | manyTargets (step : String)
  /-- A parameter refers to a step that does not come before. -/
  | stepNotBefore (step target workflow : String)
  | unknownWorkflow (step target : String)
  | unknownOperation (id step : String)
  deriving Repr, DecidableEq, Inhabited

namespace Problem

def message : Problem → String
  | .missing field => "Missing required field: " ++ field
  | .unsupportedVersion version =>
    "Unsupported Arazzo version '" ++ version ++ "' (expected one of " ++
      ", ".intercalate supportedVersions ++ ")"
  | .sourceMissing source field =>
    "Source description " ++ source.text ++ " is missing required field: " ++ field
  | .sourceKind source kind =>
    "Source description " ++ source.text ++ " has invalid type '" ++ kind ++ "' (expected " ++
      " or ".intercalate sourceKinds ++ ")"
  | .workflowIdMissing => "Workflow is missing required field: workflowId"
  | .duplicateWorkflow id => "Duplicate workflowId '" ++ id ++ "'"
  | .noSteps workflow => "Workflow '" ++ workflow ++ "' must have at least one step"
  | .stepIdMissing workflow =>
    "Step in workflow '" ++ workflow ++ "' is missing required field: stepId"
  | .duplicateStep id workflow => "Duplicate stepId '" ++ id ++ "' in workflow '" ++ workflow ++ "'"
  | .noTarget step =>
    "Step '" ++ step ++ "' must have one of operationId, operationPath, or workflowId"
  | .manyTargets step =>
    "Step '" ++ step ++ "' can only have one of operationId, operationPath, or workflowId"
  | .stepNotBefore step target workflow =>
    "Step '" ++ step ++ "' references step '" ++ target ++
      "' which is not defined before it in workflow '" ++ workflow ++ "'"
  | .unknownWorkflow step target =>
    "Step '" ++ step ++ "' references unknown workflow '" ++ target ++ "'"
  | .unknownOperation id step =>
    "Operation '" ++ id ++ "' used by step '" ++ step ++
      "' was not found in any indexed API description"

/-- An operation that is not known may be described elsewhere; all else is wrong. -/
def severity : Problem → Severity
  | .unknownOperation .. => .warning
  | _ => .error

end Problem

/-- A problem and the line where it is. -/
structure Issue where
  line : Nat
  problem : Problem
  deriving Repr, DecidableEq, Inhabited

/-- A problem as it is shown. -/
structure Finding where
  line : Nat
  column : Nat
  message : String
  severity : Severity
  deriving Repr, DecidableEq, Inhabited

def Issue.finding (issue : Issue) : Finding :=
  ⟨issue.line, 0, issue.problem.message, issue.problem.severity⟩

def Finding.isError (finding : Finding) : Bool :=
  finding.severity == .error

end ApiWorkflow
