import ApiWorkflow.File.Tree
import ApiWorkflow.File.Uri
import ApiWorkflow.Json.Printer
import ApiWorkflow.Source.Decoder

/-! # Errors

What can go wrong, by its cause. The kind of an error is the part of the program
that reports it, and starts its message.
-/

namespace ApiWorkflow

/-- The two notations of a document. -/
inductive Format where
  | json
  | yaml
  deriving Repr, DecidableEq, Inhabited

def Format.name : Format → String
  | .json => "JSON"
  | .yaml => "YAML"

/-- The part of the program that reports an error. -/
inductive ErrorKind where
  | parse
  | invalidUri
  | discovery
  | indexing
  | config
  | notFound
  | serialization
  | io
  deriving Repr, DecidableEq, Inhabited

/-- What the message of an error of this kind starts with. -/
def ErrorKind.label : ErrorKind → String
  | .parse => "parse error"
  | .invalidUri => "invalid uri"
  | .discovery => "discovery error"
  | .indexing => "indexing error"
  | .config => "configuration error"
  | .notFound => "not found"
  | .serialization => "serialization error"
  | .io => "io error"

/-- The name of a kind in a report that a program reads. -/
def ErrorKind.code : ErrorKind → String
  | .parse => "parse_error"
  | .invalidUri => "invalid_uri"
  | .discovery => "discovery_error"
  | .indexing => "indexing_error"
  | .config => "config_error"
  | .notFound => "not_found"
  | .serialization => "serialization_error"
  | .io => "io_error"

/-- The message of an error of this kind. -/
def ErrorKind.message (kind : ErrorKind) (reason : String) : String :=
  kind.label ++ ": " ++ reason

/-- A setting that has no valid value. -/
inductive SettingFault where
  | zeroLifetime
  | tooDeep (depth : Nat)
  | zeroMarkerBytes
  | noExtensions
  | badExtension (extension : String)
  | blankSource
  /-- A variable of the environment that is no number. -/
  | notNumber (key value : String)
  /-- The file of settings cannot be read. -/
  | unreadable (path : String) (fault : FileFault)
  /-- The file of settings makes no sense. -/
  | malformed (path : String)
  deriving Repr, DecidableEq, Inhabited

/-- How deeply discovery may be set to search. -/
def greatestSearchDepth : Nat := 8

def SettingFault.reason : SettingFault → String
  | .zeroLifetime => "cache.ttl_seconds must be greater than zero"
  | .tooDeep depth =>
    "discovery.max_depth must be at most " ++ toString greatestSearchDepth ++ ", got " ++ toString depth
  | .zeroMarkerBytes => "discovery.marker_bytes must be greater than zero"
  | .noExtensions => "discovery.extensions must list at least one extension"
  | .badExtension extension =>
    "discovery extension '" ++ extension ++ "' must be a bare name such as 'yaml'"
  | .blankSource => "diagnostics.source cannot be empty"
  | .notNumber key value => key ++ " must be a non-negative integer, got '" ++ value ++ "'"
  | .unreadable path fault => "failed to read config '" ++ path ++ "': " ++ fault.message
  | .malformed path => "failed to parse config '" ++ path ++ "'"

/-- An error. -/
inductive Error where
  | emptyDocument
  | badDocument (format : Format) (fault : Source.Fault)
  | badUri (fault : FileUri.Fault)
  /-- A uri that editors do not take. -/
  | badReference (uri : String)
  | unreadableDescription (path : String) (fault : FileFault)
  | badDescription (uri : String) (format : Format)
  | setting (fault : SettingFault)
  | unreadableDocument (path uri : String) (fault : FileFault)
  | unknownOperation (id file : String)
  | noFile (fault : FileFault)
  deriving Repr, Inhabited

namespace Error

def kind : Error → ErrorKind
  | .emptyDocument | .badDocument .. => .parse
  | .badUri _ | .badReference _ => .invalidUri
  | .unreadableDescription .. | .badDescription .. => .indexing
  | .setting _ => .config
  | .unreadableDocument .. | .unknownOperation .. => .notFound
  | .noFile _ => .io

/-- What went wrong, without its kind. -/
def reason : Error → String
  | .emptyDocument => "empty document"
  | .badDocument format .malformed => "invalid " ++ format.name
  | .badDocument format (.notScalar found) =>
    "invalid " ++ format.name ++ ": expected a scalar value, found " ++ found.compact
  | .badUri fault => fault.reason
  | .badReference uri => "'" ++ uri ++ "'"
  | .unreadableDescription path fault => "failed to read '" ++ path ++ "': " ++ fault.message
  | .badDescription uri format => "failed to decode '" ++ uri ++ "': invalid " ++ format.name
  | .setting fault => fault.reason
  | .unreadableDocument path uri fault =>
    "failed to read '" ++ path ++ "' (from uri '" ++ uri ++ "'): " ++ fault.message
  | .unknownOperation id file =>
    "operation '" ++ id ++ "' is not declared in any API description near '" ++ file ++ "'"
  | .noFile fault => fault.message

def message (error : Error) : String :=
  error.kind.message error.reason

end Error

end ApiWorkflow
