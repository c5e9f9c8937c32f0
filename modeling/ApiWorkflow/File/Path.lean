import ApiWorkflow.Text.Search

/-! # File paths

A path is text whose parts stand between slashes. Empty parts and parts that are
a single dot say nothing, except a dot at the start of a relative path. Two paths
are the same if their components are, and components order paths.
-/

namespace ApiWorkflow.Path

/-- The parts of a path between its slashes. -/
def parts (path : List Char) : List (List Char) :=
  Text.cutAt '/' path

/-- Put parts together with slashes. -/
def join : List (List Char) → List Char
  | [] => []
  | [part] => part
  | part :: rest => part ++ '/' :: join rest

/-- A component of a path. -/
inductive Component where
  | root
  | current
  | parent
  | name (name : List Char)
  deriving Repr, DecidableEq, Inhabited

def isAbsolute (path : List Char) : Bool :=
  path.head? == some '/'

/-- The component that a part stands for, if any. -/
def component? (part : List Char) : Option Component :=
  if part.isEmpty || part == ['.'] then none
  else if part == ['.', '.'] then some .parent
  else some (.name part)

/-- The components of a path. -/
def components (path : List Char) : List Component :=
  let parts := parts path
  let start := if isAbsolute path then [Component.root]
    else if parts.head? == some ['.'] then [.current] else []
  start ++ parts.filterMap component?

/-- The order of names: character by character. -/
def compareNames : List Char → List Char → Ordering
  | [], [] => .eq
  | [], _ :: _ => .lt
  | _ :: _, [] => .gt
  | a :: as, b :: bs =>
    if a < b then .lt else if b < a then .gt else compareNames as bs

/-- The order of components: the root, the dot, the double dot, then names. -/
def Component.compare : Component → Component → Ordering
  | .name a, .name b => compareNames a b
  | a, b =>
    let rank : Component → Nat
      | .root => 0
      | .current => 1
      | .parent => 2
      | .name _ => 3
    Ord.compare (rank a) (rank b)

/-- The order of lists of components: a list comes behind its beginnings. -/
def compareComponents : List Component → List Component → Ordering
  | [], [] => .eq
  | [], _ :: _ => .lt
  | _ :: _, [] => .gt
  | a :: as, b :: bs => (a.compare b).then (compareComponents as bs)

/-- The order of paths. -/
def compare (p q : List Char) : Ordering :=
  compareComponents (components p) (components q)

/-- Two spellings of one path. -/
def same (p q : List Char) : Bool :=
  components p == components q

/-- Drop parts that say nothing from the front. -/
def dropSilent : List (List Char) → List (List Char)
  | [] => []
  | part :: rest => if (component? part).isNone then dropSilent rest else part :: rest

/-- The parts of a path up to the last one that says something. The first part of
    a relative path always does. -/
def solid (path : List Char) : List (List Char) :=
  let parts := parts path
  match (dropSilent parts.reverse).reverse with
  | [] => if !isAbsolute path && parts.head? == some ['.'] then [['.']] else []
  | parts => parts

/-- The path without its last component, if it has one besides the root. -/
def parent? (path : List Char) : Option (List Char) :=
  match solid path with
  | [] => none
  | parts =>
    let front := solid (join parts.dropLast)
    if front.isEmpty && isAbsolute path then some ['/'] else some (join front)

/-- The last component, if it is a name. -/
def fileName? (path : List Char) : Option (List Char) :=
  match (components path).getLast? with
  | some (.name name) => some name
  | _ => none

/-- The text behind the last dot of a name, none if the name has no other dot than
    one at its start. -/
def nameExtension? (name : List Char) : Option (List Char) :=
  let reversed := name.reverse
  let extension := reversed.takeWhile (· != '.')
  match reversed.dropWhile (· != '.') with
  | '.' :: _ :: _ => some extension.reverse
  | _ => none

/-- The extension of a path's last component. -/
def extension? (path : List Char) : Option (List Char) :=
  (fileName? path).bind nameExtension?

/-- A path below another one; an absolute path stands for itself. -/
def append (base path : List Char) : List Char :=
  if isAbsolute path then path
  else if base.isEmpty || base.getLast? == some '/' then base ++ path
  else base ++ '/' :: path

end ApiWorkflow.Path
