import ApiWorkflow.Json.Value
import ApiWorkflow.Text.Blank

/-! # Workflow documents

A document describes workflows over the operations of some APIs. Values that the
document only hands on, such as schemas and payloads, are kept as they are.
-/

namespace ApiWorkflow

/-- What a document says about itself. -/
structure Info where
  title : String := ""
  version : String := ""
  summary : String := ""
  description : String := ""
  deriving Repr, Inhabited

/-- Where the operations of a document are described. -/
structure SourceDescription where
  name : String := ""
  url : String := ""
  kind : String := ""
  /-- Further fields, which are kept. -/
  extensions : Fields Json := []
  deriving Repr, Inhabited

/-- A value handed to an operation or a workflow. -/
structure Parameter where
  name : String := ""
  location : Option String := none
  value : Json := .null
  /-- The name of a parameter that is declared elsewhere. -/
  reference : Option String := none
  deriving Repr, Inhabited

/-- What a step sends. -/
structure RequestBody where
  contentType : Option String := none
  payload : Json := .null
  replacements : List Json := []
  deriving Repr, Inhabited

/-- A condition on the outcome of a step. -/
structure Criterion where
  condition : String := ""
  context : Option String := none
  kind : Option Json := none
  deriving Repr, Inhabited

/-- What to do after a step. -/
structure Action where
  name : Option String := none
  kind : Option String := none
  workflowId : Option String := none
  stepId : Option String := none
  retryAfter : Option Double := none
  retryLimit : Option Nat := none
  criteria : List Criterion := []
  reference : Option String := none
  deriving Repr, Inhabited

/-- A step of a workflow. It names what it runs: an operation by its id or by its
    path, or another workflow. -/
structure Step where
  stepId : String := ""
  description : Option String := none
  operationId : Option String := none
  operationPath : Option String := none
  workflowId : Option String := none
  parameters : List Parameter := []
  requestBody : Option RequestBody := none
  successCriteria : List Criterion := []
  onSuccess : List Action := []
  onFailure : List Action := []
  outputs : Fields Json := []
  /-- The line of the text that declares the step. -/
  line : Nat := 0
  deriving Repr, Inhabited

/-- A workflow. -/
structure Workflow where
  workflowId : String := ""
  summary : Option String := none
  description : Option String := none
  inputs : Option Json := none
  dependsOn : List String := []
  steps : List Step := []
  parameters : List Parameter := []
  successActions : List Action := []
  failureActions : List Action := []
  outputs : Fields Json := []
  /-- The line of the text that declares the workflow. -/
  line : Nat := 0
  deriving Repr, Inhabited

/-- Declarations that several workflows share. -/
structure Components where
  inputs : Fields Json := []
  parameters : Fields Json := []
  successActions : Fields Json := []
  failureActions : Fields Json := []
  deriving Repr, Inhabited

/-- A workflow document. -/
structure Document where
  /-- The version of the notation. -/
  arazzo : String := ""
  info : Info := {}
  sourceDescriptions : List SourceDescription := []
  workflows : List Workflow := []
  components : Option Components := none
  /-- The lines that declare workflows and steps, by `workflow:` or `step:` and
      the id. -/
  positions : Fields Nat := []
  deriving Repr, Inhabited

namespace Document

/-- What the name of a workflow's position starts with, and a step's. -/
def workflowMark : String := "workflow:"
def stepMark : String := "step:"

/-- The line kept under a name, the first line if there is none. -/
def lineOf (positions : Fields Nat) (name : String) : Nat :=
  (positions.get? name).getD 0

def workflowLine (d : Document) (id : String) : Nat :=
  lineOf d.positions (workflowMark ++ id)

def stepLine (d : Document) (id : String) : Nat :=
  lineOf d.positions (stepMark ++ id)

/-- The first workflow with an id. -/
def workflow? (d : Document) (id : String) : Option Workflow :=
  d.workflows.find? (·.workflowId == id)

end Document

/-- What a step may run, by the field that names it. -/
inductive TargetKind where
  | operationId
  | operationPath
  | workflowId
  deriving Repr, DecidableEq, Inhabited

/-- The name of the field. -/
def TargetKind.field : TargetKind → String
  | .operationId => "operationId"
  | .operationPath => "operationPath"
  | .workflowId => "workflowId"

/-- What a step names to be run; a blank name counts as none. -/
def Step.targets (step : Step) : List (TargetKind × String) :=
  [(TargetKind.operationId, step.operationId), (.operationPath, step.operationPath),
    (.workflowId, step.workflowId)].filterMap fun (kind, value) =>
      match value with
      | some value => if Text.isBlankString value then none else some (kind, value)
      | none => none

end ApiWorkflow
