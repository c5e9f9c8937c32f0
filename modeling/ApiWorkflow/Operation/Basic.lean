import ApiWorkflow.Document.Json

/-! # Operations of APIs

An operation is described in some file; the description of an API is what one
file says about it.
-/

namespace ApiWorkflow

/-- An operation, and where it is described. -/
structure Operation where
  operationId : String := ""
  /-- The HTTP method in capital letters. -/
  method : String := ""
  path : String := ""
  summary : String := ""
  description : String := ""
  fileUri : String := ""
  fileName : String := ""
  /-- The line that declares the id, the first one if none is known. -/
  line : Nat := 0
  tags : List String := []
  deriving Repr, DecidableEq, Inhabited

/-- The description of an API. -/
structure ApiDescription where
  uri : String := ""
  version : String := ""
  title : String := ""
  description : String := ""
  operations : List Operation := []
  deriving Repr, DecidableEq, Inhabited

def Operation.json (o : Operation) : Json :=
  .object [("operation_id", .string o.operationId), ("method", .string o.method),
    ("path", .string o.path), ("summary", .string o.summary),
    ("description", .string o.description), ("file_uri", .string o.fileUri),
    ("file_name", .string o.fileName), ("line", .int o.line), ("tags", .ofList .string o.tags)]

def ApiDescription.json (d : ApiDescription) : Json :=
  .object [("uri", .string d.uri), ("version", .string d.version), ("title", .string d.title),
    ("description", .string d.description), ("operations", .ofList Operation.json d.operations)]

end ApiWorkflow
