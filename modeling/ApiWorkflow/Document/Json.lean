import ApiWorkflow.Document.Model

/-! # A document as a JSON value

All fields are present: what is absent is null. The extensions of a source
description stand beside its other fields.
-/

namespace ApiWorkflow

namespace Json

def ofOption {α : Type} (encode : α → Json) : Option α → Json
  | some a => encode a
  | none => .null

def ofList {α : Type} (encode : α → Json) (items : List α) : Json :=
  .array (items.map encode)

def ofText? : Option String → Json :=
  ofOption .string

end Json

def Info.json (i : Info) : Json :=
  .object [("title", .string i.title), ("version", .string i.version),
    ("summary", .string i.summary), ("description", .string i.description)]

def SourceDescription.json (s : SourceDescription) : Json :=
  .object ([("name", .string s.name), ("url", .string s.url), ("type", .string s.kind)] ++ s.extensions)

def Parameter.json (p : Parameter) : Json :=
  .object [("name", .string p.name), ("in", .ofText? p.location), ("value", p.value),
    ("reference", .ofText? p.reference)]

def RequestBody.json (b : RequestBody) : Json :=
  .object [("contentType", .ofText? b.contentType), ("payload", b.payload),
    ("replacements", .array b.replacements)]

def Criterion.json (c : Criterion) : Json :=
  .object [("condition", .string c.condition), ("context", .ofText? c.context),
    ("type", c.kind.getD .null)]

def Action.json (a : Action) : Json :=
  .object [("name", .ofText? a.name), ("type", .ofText? a.kind),
    ("workflowId", .ofText? a.workflowId), ("stepId", .ofText? a.stepId),
    ("retryAfter", .ofOption Json.ofDouble a.retryAfter),
    ("retryLimit", .ofOption (fun n => Json.int n) a.retryLimit),
    ("criteria", .ofList Criterion.json a.criteria), ("reference", .ofText? a.reference)]

def Step.json (s : Step) : Json :=
  .object [("stepId", .string s.stepId), ("description", .ofText? s.description),
    ("operationId", .ofText? s.operationId), ("operationPath", .ofText? s.operationPath),
    ("workflowId", .ofText? s.workflowId), ("parameters", .ofList Parameter.json s.parameters),
    ("requestBody", .ofOption RequestBody.json s.requestBody),
    ("successCriteria", .ofList Criterion.json s.successCriteria),
    ("onSuccess", .ofList Action.json s.onSuccess),
    ("onFailure", .ofList Action.json s.onFailure), ("outputs", .object s.outputs),
    ("line", .int s.line)]

def Workflow.json (w : Workflow) : Json :=
  .object [("workflowId", .string w.workflowId), ("summary", .ofText? w.summary),
    ("description", .ofText? w.description), ("inputs", w.inputs.getD .null),
    ("dependsOn", .ofList .string w.dependsOn), ("steps", .ofList Step.json w.steps),
    ("parameters", .ofList Parameter.json w.parameters),
    ("successActions", .ofList Action.json w.successActions),
    ("failureActions", .ofList Action.json w.failureActions), ("outputs", .object w.outputs),
    ("line", .int w.line)]

def Components.json (c : Components) : Json :=
  .object [("inputs", .object c.inputs), ("parameters", .object c.parameters),
    ("successActions", .object c.successActions), ("failureActions", .object c.failureActions)]

def Document.json (d : Document) : Json :=
  .object [("arazzo", .string d.arazzo), ("info", d.info.json),
    ("sourceDescriptions", .ofList SourceDescription.json d.sourceDescriptions),
    ("workflows", .ofList Workflow.json d.workflows),
    ("components", .ofOption Components.json d.components),
    ("positions", .object (d.positions.map fun (name, line) => (name, Json.int line)))]

end ApiWorkflow
