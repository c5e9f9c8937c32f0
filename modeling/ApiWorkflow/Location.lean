import ApiWorkflow.Diagnostic
import ApiWorkflow.Operation.Basic
import ApiWorkflow.UriReference

/-! # Where an operation is described, as an editor is told -/

namespace ApiWorkflow

/-- A part of a file. -/
structure Location where
  uri : String
  range : Range
  deriving Repr, DecidableEq, Inhabited

def Location.json (l : Location) : Json :=
  .object [("uri", .string l.uri), ("range", l.range.json)]

/-- The start of the line that declares an operation. -/
def Operation.location (o : Operation) : Except Error Location :=
  if UriReference.isReference o.fileUri.toList then
    .ok ⟨o.fileUri, ⟨⟨clamp o.line, 0⟩, ⟨clamp o.line, 0⟩⟩⟩
  else .error (.badReference o.fileUri)

end ApiWorkflow
