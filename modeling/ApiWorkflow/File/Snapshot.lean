import ApiWorkflow.File.Tree
import ApiWorkflow.Json.Value
import ApiWorkflow.Text.Digits

/-! # Trees of files as JSON

A tree is given as the list of what is in it: each entry has a `path` below the
working directory, and is a file with its `text` or with its bytes in `hex`, a
directory or a link. A file may have the time of its last change.
-/

namespace ApiWorkflow

/-- What stands at a path. -/
inductive FileContent where
  | bytes (bytes : List UInt8)
  | dir
  | link (target : List Char)
  deriving Repr, DecidableEq, Inhabited

/-- An entry of a tree of files. -/
structure FileEntry where
  path : List Char
  content : FileContent
  modified : Option Int
  deriving Repr, DecidableEq, Inhabited

/-- The bytes that pairs of hexadecimal digits spell. -/
def bytesOfHex : List Char → List UInt8
  | a :: b :: cs => UInt8.ofNat ((Text.numeral? 16 [a, b]).getD 0) :: bytesOfHex cs
  | _ => []

namespace FileEntry

/-- The content that the fields of an entry describe. -/
def contentOf (fields : List (String × Json)) : FileContent :=
  match fields.lookup "link", fields.lookup "dir", fields.lookup "hex", fields.lookup "text" with
  | some (.string target), _, _, _ => .link target.toList
  | _, some (.bool true), _, _ => .dir
  | _, _, some (.string hex), _ => .bytes (bytesOfHex hex.toList)
  | _, _, _, some (.string text) => .bytes (Text.Utf8.encode text.toList)
  | _, _, _, _ => .bytes []

/-- The entry that an object describes. -/
def ofJson? : Json → Option FileEntry
  | .object fields =>
    match fields.lookup "path" with
    | some (.string path) =>
      let modified := match fields.lookup "mtime" with
        | some (.int time) => some time
        | _ => none
      some ⟨path.toList, contentOf fields, modified⟩
    | _ => none
  | _ => none

end FileEntry

namespace FileSystem

/-- Put an entry into a tree at time `now`; `modified` is the time of the last
    change of a file that gives none. -/
def addEntry (now modified : Int) (fs : FileSystem) (entry : FileEntry) : FileSystem :=
  match entry.content with
  | .bytes bytes => fs.write now entry.path bytes (entry.modified.getD modified)
  | .link target => fs.put now entry.path (.link target)
  | .dir =>
    match fs.find entry.path with
    | .ok (.dir ..) => fs
    | _ => fs.put now entry.path (.dir now [])

/-- An empty tree with a working directory. -/
def empty (now : Int) (workDir : List (List Char)) : FileSystem :=
  { root := FileTree.insert now (.dir now []) (.dir now []) workDir, workDir := workDir }

/-- The tree of some entries. -/
def ofEntries (now modified : Int) (workDir : List (List Char)) (entries : List FileEntry) :
    FileSystem :=
  entries.foldl (addEntry now modified) (empty now workDir)

/-- The path of the working directory. -/
def workPath (fs : FileSystem) : List Char :=
  '/' :: Path.join fs.workDir

end FileSystem

end ApiWorkflow
