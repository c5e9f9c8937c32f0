import ApiWorkflow.Command.Report
import ApiWorkflow.File.Snapshot
import ApiWorkflow.Session

/-! # Running a command -/

namespace ApiWorkflow.Command

/-- What a command prints. -/
inductive Printed where
  | text (content : String)
  /-- A document, over several lines. -/
  | document (value : Json)
  /-- A failure in one line. -/
  | failure (value : Json)
  deriving Repr, Inhabited

def Printed.output : Printed → String
  | .text content => content
  | .document value => Report.ofJson value
  | .failure value => Report.unlines [value.compact]

/-- What came of a command. -/
structure Outcome where
  exitCode : Nat
  printed : Printed
  /-- What went wrong, if that is reported beside the output. -/
  failed : Option String
  deriving Repr, Inhabited

/-- The outside world of a command. -/
structure World where
  now : Moment
  env : Environment

/-- The file that a command is about. -/
def file : Command → String
  | .validate file _ | .index file | .lookup file _ | .model file => file

/-- The uri of the file that an argument names. -/
def uriOf (files : FileSystem) (file : String) : Except Error String := do
  let path := Path.append files.workPath file.toList
  let uri ← (FileUri.ofPath path).mapError .badUri
  pure (String.ofList uri)

/-- The session in which all descriptions near a document are known. -/
def build (now : Moment) (s : Session) (uri : String) : Except Error (Session × IndexReport) := do
  match s.catalog.build now s.settings.discovery uri with
  | (catalog, .ok report) => pure ({ s with catalog := catalog }, report)
  | (_, .error e) => throw e

/-- What a command prints in a new session, and whether the document is in order. -/
def perform (now : Moment) (format : OutputFormat) (s : Session) (uri : String) :
    Command → Except Error (Printed × Bool)
  | .validate file offline => do
    let s ← if offline then pure s else Prod.fst <$> build now s uri
    let found := Check.findings s.catalog.index (← s.document now.files uri)
    pure (.text (Report.findings format file found), !found.any Finding.isError)
  | .index _ => do
    let (s, report) ← build now s uri
    pure (.text (Report.index format report s.catalog.index.all), true)
  | .lookup file id => do
    let (s, _) ← build now s uri
    let bare := OperationId.bare id
    match s.catalog.index.find? bare with
    | some operation => pure (.text (Report.operation format operation), true)
    | none => throw (.unknownOperation bare file)
  | .model _ => do
    let document ← s.document now.files uri
    pure (.document document.json, true)

/-- Load the settings, then do what is asked. -/
def attempt (world : World) (arguments : Arguments) : Except Error (Printed × Bool) := do
  let files := world.now.files
  let settings ← (Settings.load files world.env arguments.config).mapError .setting
  let uri ← uriOf files arguments.command.file
  perform world.now arguments.output (Session.new settings) uri arguments.command

/-- A failure as a JSON value. -/
def failureJson (command : Command) (e : Error) : Json :=
  .object [("status", .string "error"), ("code", .string e.kind.code),
    ("message", .string e.message), ("command", .string command.name)]

/-- The exit codes: all is well, the document has errors, the command failed. -/
def successCode : Nat := 0
def errorsCode : Nat := 1
def failureCode : Nat := 2

/-- Run a command line. -/
def run (world : World) (arguments : List String) : Outcome :=
  match Arguments.parse world.env arguments with
  | none => ⟨failureCode, .text "", none⟩
  | some arguments =>
    match attempt world arguments with
    | .ok (printed, inOrder) => ⟨if inOrder then successCode else errorsCode, printed, none⟩
    | .error e =>
      match arguments.output with
      | .text => ⟨failureCode, .text "", some e.message⟩
      | .json => ⟨failureCode, .failure (failureJson arguments.command e), none⟩

end ApiWorkflow.Command
