import ApiWorkflow.Document.Text
import ApiWorkflow.Operation.Basic
import ApiWorkflow.Operation.Id
import ApiWorkflow.Text.Letters
import ApiWorkflow.Yaml.Value

/-! # Reading the operations of an API description

The operations stand below `paths`, first by the path and then by the method.
Those without an id are passed over.
-/

namespace ApiWorkflow.ApiDescription

open Text
open Yaml (Value)

/-- How doubles are written as text. -/
def doubleLayout : Double.Layout where
  plus := false
  infinity := ".inf"
  negativeInfinity := "-.inf"
  notANumber := ".nan"

/-- The text of a scalar; other values, and tagged ones, have none. -/
def scalarText : Value → String
  | .text s => s
  | .int i => toString i
  | .double d => doubleLayout.write d
  | .bool b => if b then "true" else "false"
  | _ => ""

/-- The text under names that lead into nested dictionaries. -/
def textAt : List String → Value → String
  | [], value => scalarText value
  | name :: names, value =>
    match value.get? name with
    | some value => textAt names value
    | none => ""

/-- The methods of operations. -/
def methods : List String :=
  ["get", "post", "put", "delete", "patch", "head", "options", "trace"]

def isMethod (name : String) : Bool :=
  methods.any fun method => sameLetters method.toList name.toList

/-- The operation that a dictionary describes, if it has an id. -/
def operationOf? (uri : String) (text : List Char) (path method : String) (value : Value) :
    Option Operation :=
  let id := textAt ["operationId"] value
  if id.isEmpty then none
  else some {
    operationId := id
    method := String.ofList (raised method.toList)
    path := path
    summary := textAt ["summary"] value
    description := textAt ["description"] value
    fileUri := uri
    fileName := FileUri.fileName uri
    line := (OperationId.lineOf? text id.toList).getD 0
    tags := (((value.get? "tags").bind Value.items?).getD []).filterMap Value.text? }

/-- The operations of one path. -/
def pathOperations (uri : String) (text : List Char) (entry : Value × Value) : List Operation :=
  match entry.1.text?, entry.2.entries? with
  | some path, some item =>
    item.filterMap fun (method, value) =>
      match method.text? with
      | some method => if isMethod method then operationOf? uri text path method value else none
      | none => none
  | _, _ => []

/-- A description with a warning if it has no paths. -/
structure Extraction where
  description : ApiDescription
  warning : Option String
  deriving Repr, DecidableEq, Inhabited

/-- What a value says about an API. -/
def ofValue (uri : String) (text : List Char) (value : Value) : Extraction :=
  let paths := (value.get? "paths").bind Value.entries?
  { description :=
      { uri := uri
        version := textAt ["openapi"] value
        title := textAt ["info", "title"] value
        description := textAt ["info", "description"] value
        operations := (paths.getD []).flatMap (pathOperations uri text) }
    warning := if paths.isSome then none else some ("'" ++ uri ++ "' has no paths object") }

/-- The value of a text. -/
def valueOf (format : Format) (text : List Char) : Except Source.Fault Value :=
  match format with
  | .json => (Source.decode (Json.source text) Source.opaqueValue).map Value.ofJson
  | .yaml => Source.decode (Yaml.source text) Value.decoder

/-- What a text says about an API. -/
def ofText (uri : String) (format : Format) (text : List Char) : Except Error Extraction :=
  match valueOf format text with
  | .ok value => .ok (ofValue uri text value)
  | .error _ => .error (.badDescription uri format)

/-- The format of a file, by its extension. -/
def formatOf (path : List Char) : Format :=
  match Path.extension? path with
  | some extension => if sameLetters extension "json".toList then .json else .yaml
  | none => .yaml

/-- What a file says about an API. -/
def extract (files : FileSystem) (uri : String) : Except Error Extraction :=
  match FileUri.toPath uri.toList with
  | .error fault => .error (.badUri fault)
  | .ok path =>
    match files.readText path with
    | .error fault => .error (.unreadableDescription (String.ofList path) fault)
    | .ok text => ofText uri (formatOf path) text

end ApiWorkflow.ApiDescription
