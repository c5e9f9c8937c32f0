import ApiWorkflow.Error
import ApiWorkflow.Settings.Basic
import ApiWorkflow.Text.Letters
import ApiWorkflow.Text.Search
import ApiWorkflow.Word

/-! # Finding the API descriptions near a workflow document

Candidates are the files beside the document, those in the directories below, and
those in the parent directory. A candidate is a description if its extension says
so and a marker stands near its start. The start of a file is read into a buffer of a
given size; where there is no room for that buffer the program stops.
-/

namespace ApiWorkflow.Discovery

open Text

/-- The texts that mark a description. -/
def markers : List (List Char) :=
  ["openapi:".toList, "\"openapi\"".toList]

/-- Whether a text holds a marker. -/
def isMarked (text : List Char) : Bool :=
  markers.any (occursIn · text)

/-- Whether a marker stands within the first bytes of a file. -/
def hasMarker (files : FileSystem) (path : List Char) (limit : Nat) : Bool :=
  match files.readBytes path with
  | .ok bytes => isMarked (Utf8.decodeLenient (bytes.take limit))
  | .error _ => false

/-- The memory of a machine: whether there is room for a buffer of so many bytes. The size of a
    buffer is a signed number of 64 bits. -/
structure Memory where
  hasRoom : Nat → Bool
  bounded : ∀ {size}, hasRoom size = true → size < wordBound 63

/-- The memory with room for every buffer that can be addressed. -/
def Memory.full : Memory :=
  ⟨fun size => size < wordBound 63, of_decide_eq_true⟩

/-- Whether a path has one of some extensions. -/
def hasExtension (extensions : List String) (path : List Char) : Bool :=
  match Path.extension? path with
  | some extension => extensions.any fun allowed => sameLetters allowed.toList extension
  | none => false

/-- Put a path into an ordered list, unless it is there in some spelling. -/
def insertPath (path : List Char) : List (List Char) → List (List Char)
  | [] => [path]
  | p :: ps =>
    match Path.compare path p with
    | .lt => path :: p :: ps
    | .eq => p :: ps
    | .gt => p :: insertPath path ps

def isFile : FileTree → Bool
  | .file .. => true
  | _ => false

/-- The files right in a directory. -/
def filesIn (files : FileSystem) (dir : List Char) : List (List Char) :=
  match files.entries dir with
  | .ok entries => (entries.filter fun (_, tree) => isFile tree).map fun (name, _) =>
      Path.append dir name
  | .error _ => []

def isHidden (name : List Char) : Bool :=
  name.head? == some '.'

/-- The files below a directory, down to a depth; those right in it are at depth 1.
    Links are not followed. -/
def filesBelow (excluded : List (List Char)) :
    Nat → List Char → List (List Char × FileTree) → List (List Char)
  | 0, _, _ => []
  | depth + 1, dir, entries => entries.flatMap fun (name, tree) =>
    if isHidden name then []
    else
      match tree with
      | .file .. => [Path.append dir name]
      | .dir _ inner =>
        if excluded.contains name then []
        else filesBelow excluded depth (Path.append dir name) inner
      | .link _ => []

/-- The depth of a search is kept in 64 bits. -/
def searchDepth (settings : DiscoverySettings) : Nat :=
  (settings.maxDepth + 1) % wordBound 64

/-- The files of a search that starts at a path. What should be a directory may be
    a file. -/
def filesFrom (files : FileSystem) (settings : DiscoverySettings) (start : List Char) :
    List (List Char) :=
  match files.find start with
  | .ok (.dir _ entries) =>
    filesBelow (settings.excludedDirs.map String.toList) (searchDepth settings) start entries
  | .ok (.file ..) => [start]
  | _ => []

/-- The directory around another one. -/
def filesAround (files : FileSystem) (dir : List Char) : List (List Char) :=
  match Path.parent? dir with
  | some parent => filesIn files parent
  | none => []

/-- The files in which a description may be. -/
def candidates (files : FileSystem) (settings : DiscoverySettings) (dir : List Char) :
    List (List Char) :=
  (filesIn files dir ++ filesFrom files settings dir ++ filesAround files dir).foldl
    (fun paths path => insertPath path paths) []

/-- Whether a candidate is looked into. -/
def isInspected (settings : DiscoverySettings) (document path : List Char) : Bool :=
  !Path.same path document && hasExtension settings.extensions path

/-- Whether a candidate is a description that belongs to a document. -/
def isDescription (files : FileSystem) (settings : DiscoverySettings) (document path : List Char) :
    Bool :=
  isInspected settings document path && hasMarker files path settings.markerBytes

/-- The uri that stands for a candidate, if one can be written. -/
def uriOf? (path : List Char) : Option String :=
  (FileUri.ofPath path).toOption.map String.ofList

/-- The uris of the descriptions near the document at a path, if memory suffices. -/
def near (files : FileSystem) (settings : DiscoverySettings) (document : List Char) : List String :=
  match Path.parent? document with
  | none | some [] => []
  | some dir =>
    ((candidates files settings dir).filter (isDescription files settings document)).filterMap uriOf?

/-- The uris of the descriptions near a document, if memory suffices. -/
def discover (files : FileSystem) (settings : DiscoverySettings) (uri : String) :
    Except Error (List String) := do
  pure (near files settings (← (FileUri.toPath uri.toList).mapError .badUri))

end ApiWorkflow.Discovery
