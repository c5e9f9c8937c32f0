import ApiWorkflow.Source.Node
import ApiWorkflow.Yaml.Scalar

/-! # Reading a document tree as typed values

A decoder reads a node at a given remaining depth. Values are read in the order
of the text, so that of two faults the first one is reported. Fields that nobody
asks for are passed over without a look.
-/

namespace ApiWorkflow.Source

/-- Why a document cannot be read. -/
inductive Fault where
  /-- The text, or the type of a value, is wrong. -/
  | malformed
  /-- A list or dictionary stands where a scalar is expected. -/
  | notScalar (found : Json)
  deriving Repr, Inhabited

/-- Reading with the number of aliases that may still be followed. -/
abbrev Decode := ReaderT Source (StateT Nat (Except Fault))

/-- How to read a value from a node: the number tells how many levels of nesting
    are left. -/
abbrev Decoder (α : Type) := Nat → Node → Decode α

/-- The text or a type is wrong. -/
def malformed {α : Type} : Decode α :=
  throw .malformed

/-- A value, or else the text is wrong. -/
def orMalformed {α : Type} : Option α → Decode α
  | some a => pure a
  | none => malformed

/-- The node that an alias stands for; any other node itself. -/
def resolve : Node → Decode Node
  | .alias id => do
    match ← get with
    | 0 => malformed
    | left + 1 =>
      set left
      orMalformed ((← read).anchors.lookup id)
  | node => pure node

/-- The tag of a local type. -/
def isLocalTag (tag : Option String) : Bool :=
  match tag with
  | some tag => tag.toList.head? == some '!'
  | none => false

namespace Leaf

/-- The text of a leaf that is read as a string: untyped text as it is written. -/
def string? : Leaf → Option String
  | .string s => s
  | .untyped _ _ text => some text
  | _ => none

/-- Whether an optional value is absent; none if a tag says so and its text does not. -/
def isAbsent? : Leaf → Option Bool
  | .null | .nothing => some true
  | .untyped .plain tag text =>
    match tag with
    | some tag =>
      if tag = Yaml.Scalar.nullTag then
        if Yaml.Scalar.isNull text.toList then some true else none
      else some false
    | none => some (text.isEmpty || Yaml.Scalar.isNull text.toList)
  | _ => some false

/-- A value that is not written: it counts as a collection without items. -/
def isEmptyCollection : Leaf → Bool
  | .nothing => true
  | .untyped .plain _ text => text.isEmpty
  | _ => false

/-- What an untyped leaf stands for; none if its text is not what its tag says. -/
def scalar? (style : Style) (tag : Option String) (text : String) : Option Yaml.Scalar :=
  match tag with
  | some tag => Yaml.Scalar.ofTagged? tag text.toList
  | none =>
    if style == .plain then some (Yaml.Scalar.ofPlain text.toList) else some (.text text)

/-- A scalar as a JSON value; none if it is too wide for one. -/
def jsonOfScalar? : Yaml.Scalar → Option Json
  | .null => some .null
  | .bool b => some (.bool b)
  | .int i => some (.int i)
  | .wide _ => none
  | .double d => some (Json.ofDouble d)
  | .text s => some (.string s)

/-- The JSON value of a leaf. -/
def json? : Leaf → Option Json
  | .null | .nothing => some .null
  | .bool b => some (.bool b)
  | .number n => n
  | .string s => s.map .string
  | .untyped style tag text =>
    if isLocalTag tag then none else (scalar? style tag text).bind jsonOfScalar?

/-- Text that may be a number: bare, or a literal block with the type's tag. -/
def numberText? (expected : String) : Leaf → Option (List Char)
  | .untyped .plain _ text => some text.toList
  | .untyped .literal tag text => if tag = some expected then some text.toList else none
  | _ => none

/-- A leaf as a double. -/
def double? : Leaf → Option Double
  | .number (some (.int i)) => some (Double.ofInt i)
  | .number (some (.double d)) => some d
  | leaf => (numberText? Yaml.Scalar.doubleTag leaf).bind Yaml.Scalar.double?

/-- A leaf as a natural number within 64 bits. -/
def natural? : Leaf → Option Nat
  | .number (some (.int i)) => if 0 ≤ i then some i.toNat else none
  | leaf =>
    match (numberText? Yaml.Scalar.intTag leaf).bind Yaml.Scalar.unsigned? with
    | some n => if n < wordBound 64 then some n else none
    | none => none

end Leaf

/-- Read a leaf. -/
def ofLeaf {α : Type} (read? : Leaf → Option α) : Decoder α := fun _ node => do
  match ← resolve node with
  | .leaf leaf => orMalformed (read? leaf)
  | _ => malformed

/-- A string. -/
def text : Decoder String := ofLeaf Leaf.string?

/-- A double. -/
def double : Decoder Double := ofLeaf Leaf.double?

/-- A natural number. -/
def natural : Decoder Nat := ofLeaf Leaf.natural?

/-- A value that may be absent. -/
def optional {α : Type} (decoder : Decoder α) : Decoder (Option α) := fun depth node => do
  let node ← resolve node
  match node with
  | .leaf leaf =>
    if ← orMalformed leaf.isAbsent? then pure none
    else some <$> decoder depth node
  | node => some <$> decoder depth node

/-- A list. -/
def listOf {α : Type} (decoder : Decoder α) : Decoder (List α) := fun depth node => do
  match ← resolve node, depth with
  | .list _ items, depth + 1 => items.mapM (decoder depth)
  | .leaf leaf, _ => if leaf.isEmptyCollection then pure [] else malformed
  | _, _ => malformed

/-- The entries of a dictionary, each read in turn. -/
def entriesOf {α : Type} (entry : Nat → Node → Node → Decode α) : Decoder (List α) :=
  fun depth node => do
    match ← resolve node, depth with
    | .dict _ entries, depth + 1 => entries.mapM fun (key, value) => entry depth key value
    | .leaf leaf, _ => if leaf.isEmptyCollection then pure [] else malformed
    | _, _ => malformed

/-- A dictionary by its keys, the last value of a key winning. -/
def fieldsOf {α : Type} (decoder : Decoder α) : Decoder (Fields α) := fun depth node => do
  let entries ← entriesOf
    (fun depth key value => do
      let name ← text depth key
      let value ← decoder depth value
      pure (name, value))
    depth node
  pure (Fields.ofList entries)

/-- How the keys of a dictionary inside an opaque value are read. -/
inductive KeyRule where
  /-- As they are written. -/
  | written
  /-- By their type: a key that is no string spoils the value. -/
  | typed
  deriving Repr, DecidableEq, Inhabited

/-- The fields of an object, unless one of them is spoilt. -/
def allFields : List (Option String × Option Json) → Option (List (String × Json))
  | [] => some []
  | (some name, some value) :: fields => (allFields fields).map ((name, value) :: ·)
  | _ :: _ => none

/-- The items of an array, unless one of them is spoilt. -/
def allItems : List (Option Json) → Option (List Json)
  | [] => some []
  | some value :: values => (allItems values).map (value :: ·)
  | none :: _ => none

/-- The key of a dictionary inside an opaque value, where `typed` reads a value. -/
def keyOf (rule : KeyRule) (typed : Node → Decode (Option Json)) (depth : Nat) (key : Node) :
    Decode (Option String) :=
  match rule with
  | .written => some <$> text depth key
  | .typed => do pure ((← typed key).bind Json.text?)

/-- A value of any type. The result is none for a value that is spoilt by a key,
    though its text makes sense. -/
def anyValue (rule : KeyRule) : Nat → Node → Decode (Option Json)
  | 0, node => do
    match ← resolve node with
    | .leaf leaf => some <$> orMalformed leaf.json?
    | _ => malformed
  | depth + 1, node => do
    match ← resolve node with
    | .leaf leaf => some <$> orMalformed leaf.json?
    | .list tag items =>
      if isLocalTag tag then malformed
      else
        let values ← items.mapM (anyValue rule depth)
        pure ((allItems values).map .array)
    | .dict tag entries =>
      if isLocalTag tag then malformed
      else
        let fields ← entries.mapM fun (key, value) => do
          let name ← keyOf rule (anyValue rule depth) depth key
          let value ← anyValue rule depth value
          pure (name, value)
        pure ((allFields fields).map fun fields => .object (Fields.ofList fields))
    | _ => malformed

/-- A value of any type whose keys are read as they are written. -/
def opaqueValue : Decoder Json := fun depth node => do
  orMalformed (← anyValue .written depth node)

/-- A field of a record of type `σ`: its name, and how its value changes the record. -/
structure RecordField (σ : Type) where
  name : String
  decoder : Decoder (σ → σ)

/-- A field that is set by its value. -/
def field {σ α : Type} (name : String) (decoder : Decoder α) (put : α → σ → σ) : RecordField σ :=
  ⟨name, fun depth node => put <$> decoder depth node⟩

/-- The entries of a record: a known field may be given once, any other is passed
    over. -/
def recordEntries {σ : Type} (fields : List (RecordField σ)) (depth : Nat) :
    List String → σ → List (Node × Node) → Decode σ
  | _, record, [] => pure record
  | seen, record, (key, value) :: entries => do
    let name ← text depth key
    match fields.find? (·.name == name) with
    | none => recordEntries fields depth seen record entries
    | some field =>
      if seen.contains name then malformed
      else
        let change ← field.decoder depth value
        recordEntries fields depth (name :: seen) (change record) entries

/-- A record written as the list of its fields, of which the last ones may be
    missing. -/
def recordItems {σ : Type} (depth : Nat) : List (RecordField σ) → σ → List Node → Decode σ
  | _, record, [] => pure record
  | [], _, _ :: _ => malformed
  | field :: fields, record, item :: items => do
    let change ← field.decoder depth item
    recordItems depth fields (change record) items

/-- A record. Fields that are not given keep their values of `init`. -/
def record {σ : Type} (fields : List (RecordField σ)) (init : σ) : Decoder σ := fun depth node => do
  match ← resolve node, depth with
  | .dict _ entries, depth + 1 => recordEntries fields depth [] init entries
  | .list _ items, depth + 1 =>
    if (← read).positional then recordItems depth fields init items else malformed
  | .leaf leaf, _ => if leaf.isEmptyCollection then pure init else malformed
  | _, _ => malformed

/-- Read a whole document. A fault of the text behind everything that was read is
    reported last. -/
def decode {α : Type} (source : Source) (decoder : Decoder α) : Except Fault α := do
  let (value, _) ← ((decoder source.depth source.root).run source).run source.aliasLimit
  if source.intact then pure value else throw .malformed

end ApiWorkflow.Source
