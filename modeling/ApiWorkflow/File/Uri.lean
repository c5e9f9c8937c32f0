import ApiWorkflow.File.Path
import ApiWorkflow.Text.Blank
import ApiWorkflow.Text.Digits
import ApiWorkflow.Text.Search
import ApiWorkflow.Text.Utf8

/-! # File uris

A `file://` uri and the path that it names. Several uris can name one path; the
one that `FileUri.ofPath` writes is the canonical one: no authority, the letter of
a drive in lower case, and escapes for all bytes but those of unreserved
characters and slashes. Stores use the canonical uri as their key.
-/

namespace ApiWorkflow.FileUri

open Text

/-- Why a text names no file. -/
inductive Fault where
  | relativePath (path : String)
  | empty
  | notFile (uri : String)
  | remote (uri : String)
  | notText (uri : String) (fault : Utf8.Fault)
  deriving Repr, DecidableEq, Inhabited

def Fault.reason : Fault → String
  | .relativePath path => "path '" ++ path ++ "' is not absolute"
  | .empty => "empty uri"
  | .notFile uri => "'" ++ uri ++ "' is neither a file:// uri nor an absolute path"
  | .remote uri => "'" ++ uri ++ "' names a remote host; only local file uris are supported"
  | .notText uri fault => "'" ++ uri ++ "' is not valid UTF-8: " ++ fault.message

/-- What a file uri starts with. -/
def scheme : List Char := ['f', 'i', 'l', 'e', ':', '/', '/']

/-- The name of this host. -/
def localHost : List Char := ['l', 'o', 'c', 'a', 'l', 'h', 'o', 's', 't']

def isSlash (c : Char) : Bool :=
  c == '/' || c == '\\'

/-- The path starts with a drive: a letter and a colon, and then nothing or a slash
    of either kind. -/
def hasDrive : List Char → Bool
  | letter :: ':' :: rest => letter.isAlpha && (rest.isEmpty || rest.head?.any isSlash)
  | _ => false

def isAbsolute (path : List Char) : Bool :=
  Path.isAbsolute path || hasDrive path

/-- A byte that needs no escape. -/
def isPlainByte (b : UInt8) : Bool :=
  let n := b.toNat
  (0x30 ≤ n && n ≤ 0x39) || (0x41 ≤ n && n ≤ 0x5A) || (0x61 ≤ n && n ≤ 0x7A) ||
    n == 0x2D || n == 0x2E || n == 0x2F || n == 0x5F || n == 0x7E

/-- A hexadecimal digit in upper case. -/
def hexDigit (n : Nat) : Char :=
  if n < 10 then Char.ofNat (0x30 + n) else Char.ofNat (0x37 + n)

def escapeByte (b : UInt8) : List Char :=
  if isPlainByte b then [Char.ofNat b.toNat]
  else ['%', hexDigit (b.toNat / 16), hexDigit (b.toNat % 16)]

/-- A text with its bytes escaped. -/
def escape (cs : List Char) : List Char :=
  (Utf8.encode cs).flatMap escapeByte

/-- The bytes of an escaped text. A percent sign without two digits stands for
    itself. -/
def unescape : List Char → List UInt8
  | [] => []
  | '%' :: a :: b :: cs =>
    match digit? 16 a, digit? 16 b with
    | some a, some b => UInt8.ofNat (a * 16 + b) :: unescape cs
    | _, _ => 0x25 :: unescape (a :: b :: cs)
  | c :: cs => String.utf8EncodeChar c ++ unescape cs

/-- A drive path behind its letter and colon, with slashes of one kind. -/
def driveRest (rest : List Char) : List Char :=
  if rest.isEmpty then ['/'] else rest.map fun c => if c == '\\' then '/' else c

/-- The uri of an absolute path. -/
def ofAbsolute (path : List Char) : List Char :=
  match path with
  | letter :: ':' :: rest =>
    if hasDrive path then
      scheme ++ '/' :: letter.toLower :: ['%', '3', 'A'] ++ escape (driveRest rest)
    else scheme ++ escape path
  | path => scheme ++ escape path

/-- The canonical uri of a path. -/
def ofPath (path : List Char) : Except Fault (List Char) :=
  if isAbsolute path then .ok (ofAbsolute path)
  else .error (.relativePath (String.ofList path))

/-- The path that an escaped text names: a drive path loses the slash before it. -/
def pathOfBytes (uri : List Char) (bytes : List UInt8) : Except Fault (List Char) :=
  match Utf8.decode bytes with
  | .error fault => .error (.notText (String.ofList uri) fault)
  | .ok ('/' :: path) => if hasDrive path then .ok path else .ok ('/' :: path)
  | .ok path => .ok path

/-- The path that a uri, or an absolute path, names. -/
def toPath (uri : List Char) : Except Fault (List Char) :=
  let uri := trim uri
  if uri.isEmpty then .error .empty
  else
    match stripPiece scheme uri with
    | none => if isAbsolute uri then .ok uri else .error (.notFile (String.ofList uri))
    | some rest =>
      let rest := (stripPiece localHost rest).getD rest
      if Path.isAbsolute rest then pathOfBytes uri (unescape rest)
      else .error (.remote (String.ofList uri))

/-- The canonical spelling of a uri. -/
def canonical (uri : List Char) : Except Fault (List Char) := do
  ofPath (← toPath uri)

/-- The canonical spelling of a uri that names a file; any other text as it is. -/
def keyChars (uri : List Char) : List Char :=
  match canonical uri with
  | .ok uri => uri
  | .error _ => uri

/-- The key under which stores keep what belongs to a uri. -/
def key (uri : String) : String :=
  String.ofList (keyChars uri.toList)

/-- The text behind the last slash. -/
def afterSlash (cs : List Char) : List Char :=
  (cs.reverse.takeWhile (· != '/')).reverse

/-- The name of the file that a uri names; of any other text, the part behind its
    last slash. -/
def fileName (uri : String) : String :=
  let name := match toPath uri.toList with
    | .ok path => Path.fileName? path
    | .error _ => none
  String.ofList (name.getD (afterSlash uri.toList))

end ApiWorkflow.FileUri
