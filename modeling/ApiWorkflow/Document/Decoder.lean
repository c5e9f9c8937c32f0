import ApiWorkflow.Document.Model
import ApiWorkflow.Json.Printer
import ApiWorkflow.Source.Decoder

/-! # Reading a document from a tree

Each record lists its fields in the order in which they may be written without
their names. Every field may be missing.
-/

namespace ApiWorkflow

open Source

/-- A scalar of any type as text: a number in its canonical form, null as empty
    text. -/
def scalarText : Decoder String := fun depth node => do
  match ← opaqueValue depth node with
  | .null => pure ""
  | .string s => pure s
  | .bool b => pure (if b then "true" else "false")
  | .int i => pure (toString i)
  | .double d => pure (Json.doubleLayout.write d)
  | other => throw (.notScalar other)

namespace Info

def fields : List (RecordField Info) :=
  [field "title" scalarText fun v r => { r with title := v },
    field "version" scalarText fun v r => { r with version := v },
    field "summary" scalarText fun v r => { r with summary := v },
    field "description" scalarText fun v r => { r with description := v }]

def decoder : Decoder Info := record fields {}

end Info

namespace SourceDescription

def fields : List (RecordField SourceDescription) :=
  [field "name" scalarText fun v r => { r with name := v },
    field "url" scalarText fun v r => { r with url := v },
    field "type" scalarText fun v r => { r with kind := v }]

/-- The entries of a source description: those that are no known field are kept,
    spoilt ones included until everything is read. -/
def readEntries (depth : Nat) :
    List String → SourceDescription → List (String × Option Json) → List (Node × Node) →
      Decode (SourceDescription × List (String × Option Json))
  | _, source, kept, [] => pure (source, kept.reverse)
  | seen, source, kept, (key, value) :: entries => do
    let name ← text depth key
    match fields.find? (·.name == name) with
    | none =>
      let value ← anyValue .typed depth value
      readEntries depth seen source ((name, value) :: kept) entries
    | some field =>
      if seen.contains name then malformed
      else
        let change ← field.decoder depth value
        readEntries depth (name :: seen) (change source) kept entries

/-- A source description. It cannot be written without the names of its fields. -/
def decoder : Decoder SourceDescription := fun depth node => do
  match ← resolve node, depth with
  | .dict _ entries, depth + 1 =>
    let (source, kept) ← readEntries depth [] {} [] entries
    let kept ← orMalformed (allFields (kept.map fun (name, value) => (some name, value)))
    pure { source with extensions := Fields.ofList kept }
  | .leaf leaf, _ => if leaf.isEmptyCollection then pure {} else malformed
  | _, _ => malformed

end SourceDescription

namespace Parameter

def fields : List (RecordField Parameter) :=
  [field "name" text fun v r => { r with name := v },
    field "in" (optional text) fun v r => { r with location := v },
    field "value" opaqueValue fun v r => { r with value := v },
    field "reference" (optional text) fun v r => { r with reference := v }]

def decoder : Decoder Parameter := record fields {}

end Parameter

namespace RequestBody

def fields : List (RecordField RequestBody) :=
  [field "contentType" (optional text) fun v r => { r with contentType := v },
    field "payload" opaqueValue fun v r => { r with payload := v },
    field "replacements" (listOf opaqueValue) fun v r => { r with replacements := v }]

def decoder : Decoder RequestBody := record fields {}

end RequestBody

namespace Criterion

def fields : List (RecordField Criterion) :=
  [field "condition" text fun v r => { r with condition := v },
    field "context" (optional text) fun v r => { r with context := v },
    field "type" (optional opaqueValue) fun v r => { r with kind := v }]

def decoder : Decoder Criterion := record fields {}

end Criterion

namespace Action

def fields : List (RecordField Action) :=
  [field "name" (optional text) fun v r => { r with name := v },
    field "type" (optional text) fun v r => { r with kind := v },
    field "workflowId" (optional text) fun v r => { r with workflowId := v },
    field "stepId" (optional text) fun v r => { r with stepId := v },
    field "retryAfter" (optional double) fun v r => { r with retryAfter := v },
    field "retryLimit" (optional natural) fun v r => { r with retryLimit := v },
    field "criteria" (listOf Criterion.decoder) fun v r => { r with criteria := v },
    field "reference" (optional text) fun v r => { r with reference := v }]

def decoder : Decoder Action := record fields {}

end Action

namespace Step

def fields : List (RecordField Step) :=
  [field "stepId" scalarText fun v r => { r with stepId := v },
    field "description" (optional text) fun v r => { r with description := v },
    field "operationId" (optional text) fun v r => { r with operationId := v },
    field "operationPath" (optional text) fun v r => { r with operationPath := v },
    field "workflowId" (optional text) fun v r => { r with workflowId := v },
    field "parameters" (listOf Parameter.decoder) fun v r => { r with parameters := v },
    field "requestBody" (optional RequestBody.decoder) fun v r => { r with requestBody := v },
    field "successCriteria" (listOf Criterion.decoder) fun v r => { r with successCriteria := v },
    field "onSuccess" (listOf Action.decoder) fun v r => { r with onSuccess := v },
    field "onFailure" (listOf Action.decoder) fun v r => { r with onFailure := v },
    field "outputs" (fieldsOf opaqueValue) fun v r => { r with outputs := v }]

def decoder : Decoder Step := record fields {}

end Step

namespace Workflow

def fields : List (RecordField Workflow) :=
  [field "workflowId" scalarText fun v r => { r with workflowId := v },
    field "summary" (optional text) fun v r => { r with summary := v },
    field "description" (optional text) fun v r => { r with description := v },
    field "inputs" (optional opaqueValue) fun v r => { r with inputs := v },
    field "dependsOn" (listOf text) fun v r => { r with dependsOn := v },
    field "steps" (listOf Step.decoder) fun v r => { r with steps := v },
    field "parameters" (listOf Parameter.decoder) fun v r => { r with parameters := v },
    field "successActions" (listOf Action.decoder) fun v r => { r with successActions := v },
    field "failureActions" (listOf Action.decoder) fun v r => { r with failureActions := v },
    field "outputs" (fieldsOf opaqueValue) fun v r => { r with outputs := v }]

def decoder : Decoder Workflow := record fields {}

end Workflow

namespace Components

def fields : List (RecordField Components) :=
  [field "inputs" (fieldsOf opaqueValue) fun v r => { r with inputs := v },
    field "parameters" (fieldsOf opaqueValue) fun v r => { r with parameters := v },
    field "successActions" (fieldsOf opaqueValue) fun v r => { r with successActions := v },
    field "failureActions" (fieldsOf opaqueValue) fun v r => { r with failureActions := v }]

def decoder : Decoder Components := record fields {}

end Components

namespace Document

def fields : List (RecordField Document) :=
  [field "arazzo" scalarText fun v r => { r with arazzo := v },
    field "info" Info.decoder fun v r => { r with info := v },
    field "sourceDescriptions" (listOf SourceDescription.decoder)
      fun v r => { r with sourceDescriptions := v },
    field "workflows" (listOf Workflow.decoder) fun v r => { r with workflows := v },
    field "components" (optional Components.decoder) fun v r => { r with components := v }]

def decoder : Decoder Document := record fields {}

end Document

end ApiWorkflow
