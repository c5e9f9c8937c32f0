import ApiWorkflow.Catalog
import ApiWorkflow.Check.Workflows
import ApiWorkflow.Location

/-! # A session with an editor

The texts of open documents, and the catalog of operations. Operations on a
session take the outside world as it is at the time.
-/

namespace ApiWorkflow

open Text

/-- The state of a session. -/
structure Session where
  settings : Settings
  /-- The texts of open documents, by the keys of their uris. -/
  texts : Fields String := []
  catalog : Catalog
  deriving Repr, Inhabited

namespace Session

/-- A session in which nothing has happened. -/
def new (settings : Settings) : Session :=
  { settings := settings, catalog := { cache := { lifetime := settings.cache.lifetime } } }

/-- The text of an open document. -/
def text? (s : Session) (uri : String) : Option String :=
  s.texts.get? (FileUri.key uri)

/-- Keep the text of a document. -/
def store (s : Session) (uri text : String) : Session :=
  { s with texts := s.texts.insert (FileUri.key uri) text }

/-- What an editor shows for a text. -/
def diagnostics (s : Session) (text : String) : List Diagnostic :=
  match Document.parse text with
  | .ok document =>
    (Check.findings s.catalog.index document).map (Diagnostic.ofFinding s.settings.diagnostics)
  | .error e => [Diagnostic.ofError s.settings.diagnostics e]

/-- What the names of workflow documents have in them. -/
def nameMarkers : List (List Char) :=
  [".arazzo.".toList, "-arazzo.".toList]

/-- What the texts of workflow documents have in them. -/
def textMarker : List Char := "arazzo:".toList

/-- Whether a uri seems to be of a workflow document. -/
def isWorkflowFile (s : Session) (uri : String) : Bool :=
  nameMarkers.any (occursIn · uri.toList) || (s.text? uri).any (occursIn textMarker ·.toList)

/-- Whether a uri seems to be of an API description. -/
def isDescriptionFile (s : Session) (uri : String) : Bool :=
  (s.catalog.index.description? uri).isSome || (s.text? uri).any (Discovery.isMarked ·.toList)

/-- A document is opened; the descriptions near a workflow document are read. -/
def openText (now : Moment) (s : Session) (uri text : String) : Session × List Diagnostic :=
  let shown := s.diagnostics text
  let s := s.store uri text
  if s.isWorkflowFile uri then
    ({ s with catalog := (s.catalog.build now s.settings.discovery uri).1 }, shown)
  else (s, shown)

/-- A document is changed. -/
def changeText (s : Session) (uri text : String) : Session × List Diagnostic :=
  (s.store uri text, s.diagnostics text)

/-- A document is saved, perhaps with its text; a description is read anew. -/
def saveText (now : Moment) (s : Session) (uri : String) (text : Option String) :
    Session × List Diagnostic :=
  let s := match text with
    | some text => if text.isEmpty then s else s.store uri text
    | none => s
  let shown := match s.text? uri with
    | some text => s.diagnostics text
    | none => []
  if s.isDescriptionFile uri then
    ({ s with catalog := (s.catalog.reindexFile now uri).1 }, shown)
  else (s, shown)

/-- A document is closed. -/
def closeText (s : Session) (uri : String) : Session :=
  { s with texts := s.texts.erase (FileUri.key uri) }

/-- The text of a document: as it is open, or else of its file. -/
def textOf (files : FileSystem) (s : Session) (uri : String) : Except Error String :=
  match s.text? uri with
  | some text => .ok text
  | none =>
    match FileUri.toPath uri.toList with
    | .error fault => .error (.badUri fault)
    | .ok path =>
      match files.readText path with
      | .ok text => .ok (String.ofList text)
      | .error fault => .error (.unreadableDocument (String.ofList path) uri fault)

/-- The document of a uri. -/
def document (files : FileSystem) (s : Session) (uri : String) : Except Error Document := do
  Document.parse (← s.textOf files uri)

/-- The operation whose id is declared on a line of an open document. The line has
    to be as long as `character`. -/
def definition? (s : Session) (uri : String) (line character : Nat) : Option Operation := do
  let text ← s.text? uri
  let current ← (lines text.toList)[line]?
  if current.length < character then none
  else
    let id ← OperationId.declared? current
    s.catalog.index.find? (OperationId.bare (String.ofList id))

/-- Where that operation is described. -/
def definitionLocation (s : Session) (uri : String) (line character : Nat) :
    Except Error (Option Location) :=
  match s.definition? uri line character with
  | some operation => some <$> operation.location
  | none => .ok none

end Session

end ApiWorkflow
