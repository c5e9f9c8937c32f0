import ApiWorkflow.File.Uri
import ApiWorkflow.Operation.Basic

/-! # The index of known operations

Operations by their ids, and the descriptions they come from by the keys of their
uris. The first operation that is added under an id stays until its description
is removed.
-/

namespace ApiWorkflow

/-- Known operations and descriptions. -/
structure OperationIndex where
  operations : Fields Operation := []
  descriptions : Fields ApiDescription := []
  deriving Repr, DecidableEq, Inhabited

namespace OperationIndex

/-- The operation with an id. -/
def find? (index : OperationIndex) (id : String) : Option Operation :=
  index.operations.get? id

/-- Whether no operation has an id. -/
def isFree (index : OperationIndex) (id : String) : Bool :=
  (index.find? id).isNone

/-- Add an operation, unless its id is taken. -/
def add (index : OperationIndex) (operation : Operation) : OperationIndex :=
  if index.isFree operation.operationId then
    { index with operations := index.operations.insert operation.operationId operation }
  else index

/-- Add operations in turn; the number tells how many ids were free. -/
def addAll (index : OperationIndex) : List Operation → OperationIndex × Nat
  | [] => (index, 0)
  | operation :: rest =>
    let (last, added) := (index.add operation).addAll rest
    (last, if index.isFree operation.operationId then added + 1 else added)

/-- Add a description, in place of one with the same key. -/
def addDescription (index : OperationIndex) (description : ApiDescription) : OperationIndex :=
  { index with descriptions := index.descriptions.insert (FileUri.key description.uri) description }

/-- Remove a description and its operations. -/
def remove (index : OperationIndex) (uri : String) : OperationIndex :=
  let key := FileUri.key uri
  { operations := index.operations.filter fun (_, o) => o.fileUri != key && o.fileUri != uri
    descriptions := index.descriptions.erase key }

/-- Remove everything. -/
def clear (_ : OperationIndex) : OperationIndex :=
  {}

/-- All operations, in the order of their ids. -/
def all (index : OperationIndex) : List Operation :=
  index.operations.map (·.2)

def size (index : OperationIndex) : Nat :=
  index.operations.length

/-- The description under the key of a uri. -/
def description? (index : OperationIndex) (uri : String) : Option ApiDescription :=
  index.descriptions.get? (FileUri.key uri)

end OperationIndex

end ApiWorkflow
