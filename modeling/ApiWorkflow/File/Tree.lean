import ApiWorkflow.File.Path
import ApiWorkflow.Text.Utf8

/-! # A tree of files

Files, directories and symbolic links, each file and directory with the time of
its last change. Paths are walked component by component: a link is followed, a
double dot leads to the parent of the directory reached so far.
-/

namespace ApiWorkflow

/-- A file, a link or a directory. -/
inductive FileTree where
  | file (bytes : List UInt8) (modified : Int)
  | link (target : List Char)
  | dir (modified : Int) (entries : List (List Char × FileTree))
  deriving Repr, Inhabited

/-- Why a path cannot be used. -/
inductive FileFault where
  | missing
  | notDirectory
  | isDirectory
  | tooManyLinks
  | nameTooLong
  /-- The content is no text. -/
  | notText
  /-- The path has a character that no name can have. -/
  | nulCharacter
  deriving Repr, DecidableEq, Inhabited

def FileFault.message : FileFault → String
  | .missing => "No such file or directory (os error 2)"
  | .notDirectory => "Not a directory (os error 20)"
  | .isDirectory => "Is a directory (os error 21)"
  | .tooManyLinks => "Too many levels of symbolic links (os error 40)"
  | .nameTooLong => "File name too long (os error 36)"
  | .notText => "stream did not contain valid UTF-8"
  | .nulCharacter => "file name contained an unexpected NUL byte"

namespace FileTree

/-- The entry of a name in a list of entries. -/
def entryOf (name : List Char) (entries : List (List Char × FileTree)) : Option FileTree :=
  entries.lookup name

/-- What stands at a place, given by the names that lead there. -/
def at? : FileTree → List (List Char) → Option FileTree
  | tree, [] => some tree
  | .dir _ entries, name :: names =>
    match entryOf name entries with
    | some tree => tree.at? names
    | none => none
  | _, _ :: _ => none

/-- Put a tree under a name; a name that is there already keeps its position. -/
def setEntry (name : List Char) (tree : FileTree) :
    List (List Char × FileTree) → List (List Char × FileTree)
  | [] => [(name, tree)]
  | (n, t) :: rest => if n = name then (name, tree) :: rest else (n, t) :: setEntry name tree rest

/-- Put a tree at a place; missing directories are made. A directory that gets a
    new entry changes at time `now`. -/
def insert (now : Int) (new : FileTree) : FileTree → List (List Char) → FileTree
  | _, [] => new
  | .dir modified entries, name :: names =>
    match entryOf name entries with
    | some tree => .dir modified (setEntry name (insert now new tree names) entries)
    | none => .dir now (setEntry name (insert now new (.dir now []) names) entries)
  | _, name :: names => .dir now [(name, insert now new (.dir now []) names)]

/-- Take away what stands at a place, if anything does. -/
def erase (now : Int) : FileTree → List (List Char) → FileTree
  | .dir modified entries, [name] =>
    if (entryOf name entries).isSome then .dir now (entries.filter (·.1 != name))
    else .dir modified entries
  | .dir modified entries, name :: names =>
    match entryOf name entries with
    | some tree => .dir modified (setEntry name (tree.erase now names) entries)
    | none => .dir modified entries
  | tree, _ => tree

end FileTree

/-- A whole tree of files with the directory where relative paths start. -/
structure FileSystem where
  root : FileTree
  workDir : List (List Char)
  deriving Repr, Inhabited

namespace FileSystem

/-- The parts of a path that are walked; a slash at the end asks for a directory. -/
def steps (path : List Char) : List (List Char) :=
  (Path.parts path).map fun part => if part.isEmpty then ['.'] else part

/-- The longest name and the longest path, in bytes. -/
def longestName : Nat := 255
def longestPath : Nat := 4095

/-- Walk from a directory, given by the names that lead there, the last one first.
    The result is such a place, and no link stands there. `links` links may be
    followed, and `bound` bounds the steps. -/
def walk (fs : FileSystem) : Nat → Nat → List (List Char) → List (List Char) →
    Except FileFault (List (List Char))
  | _, _, place, [] => .ok place
  | 0, _, _, _ :: _ => .error .tooManyLinks
  | bound + 1, links, place, part :: rest =>
    match fs.root.at? place.reverse with
    | some (.dir _ entries) =>
      if part == ['.'] then fs.walk bound links place rest
      else if part == ['.', '.'] then fs.walk bound links place.tail rest
      else if longestName < (Text.Utf8.encode part).length then .error .nameTooLong
      else
        match FileTree.entryOf part entries with
        | none => .error .missing
        | some (.link target) =>
          match links with
          | 0 => .error .tooManyLinks
          | links + 1 =>
            if target.isEmpty then .error .missing
            else
              let start := if Path.isAbsolute target then [] else place
              fs.walk bound links start (steps target ++ rest)
        | some _ => fs.walk bound links (part :: place) rest
    | some _ => .error .notDirectory
    | none => .error .missing

/-- How many links a path may lead through. -/
def linkLimit : Nat := 40

/-- Steps enough for a path and all links that it may lead through. -/
def stepLimit (path : List Char) : Nat :=
  path.length + 200000

/-- The place that a path leads to. -/
def locate (fs : FileSystem) (path : List Char) : Except FileFault (List (List Char)) :=
  if path.contains '\x00' then .error .nulCharacter
  else if path.isEmpty then .error .missing
  else if longestPath < (Text.Utf8.encode path).length then .error .nameTooLong
  else
    let start := if Path.isAbsolute path then [] else fs.workDir.reverse
    fs.walk (stepLimit path) linkLimit start (steps path)

/-- What a path leads to. -/
def find (fs : FileSystem) (path : List Char) : Except FileFault FileTree := do
  let place ← fs.locate path
  match fs.root.at? place.reverse with
  | some tree => .ok tree
  | none => .error .missing

/-- The bytes of a file. -/
def readBytes (fs : FileSystem) (path : List Char) : Except FileFault (List UInt8) := do
  match ← fs.find path with
  | .file bytes _ => .ok bytes
  | .dir .. => .error .isDirectory
  | .link _ => .error .missing

/-- The text of a file. -/
def readText (fs : FileSystem) (path : List Char) : Except FileFault (List Char) := do
  match Text.Utf8.decode (← fs.readBytes path) with
  | .ok text => .ok text
  | .error _ => .error .notText

/-- When a file or directory was last changed. -/
def modified (fs : FileSystem) (path : List Char) : Except FileFault Int := do
  match ← fs.find path with
  | .file _ modified => .ok modified
  | .dir modified _ => .ok modified
  | .link _ => .error .missing

/-- The entries of a directory. -/
def entries (fs : FileSystem) (path : List Char) :
    Except FileFault (List (List Char × FileTree)) := do
  match ← fs.find path with
  | .dir _ entries => .ok entries
  | _ => .error .notDirectory

/-- The place of names below a place, both given by the last name first. Links on
    the way are followed, but not the last name. -/
def placeBelow (fs : FileSystem) (place : List (List Char)) :
    List (List Char) → List (List Char)
  | [] => place
  | [name] => name :: place
  | name :: names =>
    match fs.walk (stepLimit name) linkLimit place [name] with
    | .ok place => fs.placeBelow place names
    | .error _ => fs.placeBelow (name :: place) names

/-- The place of a path below the working directory. -/
def place (fs : FileSystem) (path : List Char) : List (List Char) :=
  (fs.placeBelow fs.workDir.reverse
    ((Path.parts path).filter fun part => !part.isEmpty && part != ['.'])).reverse

/-- Put a file, a link or a directory at a path below the working directory. -/
def put (fs : FileSystem) (now : Int) (path : List Char) (tree : FileTree) : FileSystem :=
  { fs with root := FileTree.insert now tree fs.root (fs.place path) }

/-- Take away what stands at a path below the working directory. -/
def remove (fs : FileSystem) (now : Int) (path : List Char) : FileSystem :=
  { fs with root := fs.root.erase now (fs.place path) }

/-- Set the time of the last change of a file. -/
def touch (fs : FileSystem) (path : List Char) (time : Int) : FileSystem :=
  match fs.locate path with
  | .error _ => fs
  | .ok place =>
    let setTo (tree : FileTree) : FileSystem :=
      { fs with root := FileTree.insert time tree fs.root place.reverse }
    match fs.root.at? place.reverse with
    | some (.file bytes _) => setTo (.file bytes time)
    | some (.dir _ entries) => setTo (.dir time entries)
    | _ => fs

/-- Write a file at a path below the working directory. A file that is there is
    written over, also through a link. -/
def write (fs : FileSystem) (now : Int) (path : List Char) (bytes : List UInt8) (time : Int) :
    FileSystem :=
  match fs.locate path with
  | .ok place => { fs with root := FileTree.insert now (.file bytes time) fs.root place.reverse }
  | .error _ => fs.put now path (.file bytes time)

end FileSystem

end ApiWorkflow
