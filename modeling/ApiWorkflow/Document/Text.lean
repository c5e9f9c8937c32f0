import ApiWorkflow.Document.Decoder
import ApiWorkflow.Document.Positions
import ApiWorkflow.Error
import ApiWorkflow.Json.Text
import ApiWorkflow.Yaml.Document

/-! # Reading a document from text -/

namespace ApiWorkflow

open Text

/-- A text whose first character is an opening brace is JSON, any other is YAML. -/
def Format.ofText (text : List Char) : Format :=
  if (trimStart text).head? == some '{' then .json else .yaml

/-- The document tree of a text. -/
def Format.source (format : Format) (text : List Char) : Source :=
  match format with
  | .json => Json.source text
  | .yaml => Yaml.source text

namespace Document

/-- Give every step and workflow the line that declares its id. -/
def withLines (positions : Fields Nat) (d : Document) : Document :=
  { d with
    positions := positions
    workflows := d.workflows.map fun w =>
      { w with
        line := lineOf positions (workflowMark ++ w.workflowId)
        steps := w.steps.map fun s => { s with line := lineOf positions (stepMark ++ s.stepId) } } }

/-- Read a document from its characters. -/
def ofChars (text : List Char) : Except Error Document :=
  if isBlankText text then .error .emptyDocument
  else
    let format := Format.ofText text
    match Source.decode (format.source text) decoder with
    | .ok document => .ok (document.withLines (Positions.scan text))
    | .error fault => .error (.badDocument format fault)

/-- Read a document. -/
def parse (text : String) : Except Error Document :=
  ofChars text.toList

end Document

end ApiWorkflow
