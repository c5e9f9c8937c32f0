import ApiWorkflow.Yaml.Event
import ApiWorkflow.Yaml.Token.Stream

/-! # YAML documents

The events of a document are put together to a tree. Anchors are numbered: a new
mark gets the number of names known so far, so a name that is given again takes
the number that the next new name will take, too. An alias stands for the node
that has its number in the end.
-/

namespace ApiWorkflow.Yaml

open Source

/-- A collection that is not closed yet. -/
inductive Frame where
  /-- A list with its items, the last one first. -/
  | list (tag : Option String) (items : List Node)
  /-- A dictionary with its entries, the last one first, and perhaps a key that
      waits for its value. -/
  | dict (tag : Option String) (entries : List (Node × Node)) (key : Option Node)
  deriving Repr, Inhabited

namespace Frame

/-- Put a node into a collection. -/
def add (node : Node) : Frame → Frame
  | .list tag items => .list tag (node :: items)
  | .dict tag entries none => .dict tag entries (some node)
  | .dict tag entries (some key) => .dict tag ((key, node) :: entries) none

/-- The node of a collection that ends here. -/
def close : Frame → Node
  | .list tag items => .list tag items.reverse
  | .dict tag entries none => .dict tag entries.reverse
  | .dict tag entries (some key) => .dict tag ((key, .cut) :: entries).reverse

end Frame

/-- A tree under construction. -/
structure Composer where
  /-- The open collections, the innermost first, each with the place of its start
      among the events. -/
  frames : List (Nat × Frame)
  root : Option Node
  /-- The names of anchors with their numbers. -/
  names : List (String × Nat)
  /-- The place of the event that each number marks, the latest first. -/
  places : List (Nat × Nat)
  /-- The finished nodes by the place of their first event. -/
  nodes : List (Nat × Node)
  /-- How many events there are. -/
  count : Nat
  /-- Whether every alias was known. -/
  intact : Bool
  deriving Repr, Inhabited

namespace Composer

def start : Composer :=
  ⟨[], none, [], [], [], 0, true⟩

/-- Keep a node whose first event stands at `place` if an anchor marks it. -/
def keep (place : Nat) (node : Node) (c : Composer) : Composer :=
  if c.places.any (·.2 == place) then { c with nodes := (place, node) :: c.nodes } else c

/-- A node is finished whose first event stands at `place`. -/
def finish (place : Nat) (node : Node) (c : Composer) : Composer :=
  let c := c.keep place node
  match c.frames with
  | [] => { c with root := some node }
  | (start, frame) :: frames => { c with frames := (start, frame.add node) :: frames }

/-- The event at the current place may carry an anchor. -/
def mark (anchor : Option String) (c : Composer) : Composer :=
  match anchor with
  | none => c
  | some name =>
    let id := c.names.length
    { c with
      names := (name, id) :: c.names.filter (·.1 != name)
      places := (id, c.count) :: c.places }

/-- One event; none if it is an alias of a name that is not known. -/
def step (c : Composer) : Event → Option Composer
  | .alias name =>
    match c.names.lookup name with
    | none => none
    | some id => some { c.finish c.count (.alias id) with count := c.count + 1 }
  | .scalar props style text =>
    let c := c.mark props.anchor
    some { c.finish c.count (.leaf (.untyped style props.tag text)) with count := c.count + 1 }
  | .sequenceStart props =>
    let c := c.mark props.anchor
    some { c with frames := (c.count, .list props.tag []) :: c.frames, count := c.count + 1 }
  | .mappingStart props =>
    let c := c.mark props.anchor
    some { c with frames := (c.count, .dict props.tag [] none) :: c.frames, count := c.count + 1 }
  | .sequenceEnd | .mappingEnd =>
    match c.frames with
    | [] => none
    | (place, frame) :: frames =>
      some { ({ c with frames := frames }).finish place frame.close with count := c.count + 1 }

/-- All events, up to an alias that is not known. -/
def run : Composer → List Event → Composer
  | c, [] => c
  | c, event :: events =>
    match c.step event with
    | some c => c.run events
    | none => { c with intact := false }

/-- Close the collections that are still open around a last node. -/
def closeAll (c : Composer) (last : Node) : List (Nat × Frame) → Composer
  | [] => { c with root := some last }
  | (place, frame) :: frames =>
    let node := (frame.add last).close
    (c.keep place node).closeAll node frames

/-- The nodes by their numbers. -/
def anchors (c : Composer) : List (Nat × Node) :=
  c.places.filterMap fun (id, place) => (c.nodes.lookup place).map fun node => (id, node)

end Composer

/-- How deeply values may be nested. -/
def depthLimit : Nat := 128

/-- A YAML text as a document. An empty text is a document without content. -/
def source (cs : List Char) : Source :=
  let stream := Event.ofTokens (Token.ofText cs)
  let c := Composer.start.run stream.events
  let intact := stream.intact && c.intact
  let c := match c.frames with
    | [] => c
    | frames => c.closeAll .cut frames
  { root := match c.root with
      | some root => root
      | none => if intact then .leaf .nothing else .cut
    positional := false
    depth := depthLimit
    anchors := c.anchors
    aliasLimit := 100 * c.count
    intact := intact }

end ApiWorkflow.Yaml
