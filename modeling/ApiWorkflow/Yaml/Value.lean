import ApiWorkflow.Source.Decoder

/-! # YAML values

Values of a YAML document with their local tags. The keys of a dictionary are
values of any type, and no two of them are the same.
-/

namespace ApiWorkflow.Yaml

/-- A YAML value. -/
inductive Value where
  | null
  | bool (b : Bool)
  | int (i : Int)
  | double (d : Double)
  | text (s : String)
  | list (items : List Value)
  | dict (entries : List (Value × Value))
  | tagged (tag : String) (value : Value)
  deriving Repr, Inhabited

namespace Value

mutual

/-- Two values are the same if they have the same type, tags and content. The order
    of the entries of a dictionary does not matter. -/
def same : Value → Value → Bool
  | .null, .null => true
  | .bool a, .bool b => a == b
  | .int a, .int b => a == b
  | .double a, .double b => a.sameNumber b
  | .text a, .text b => a == b
  | .list as, .list bs => sameItems as bs
  | .dict as, .dict bs => as.length == bs.length && entriesIn bs as
  | .tagged s a, .tagged t b => s == t && same a b
  | _, _ => false

def sameItems : List Value → List Value → Bool
  | [], [] => true
  | a :: as, b :: bs => same a b && sameItems as bs
  | _, _ => false

/-- Whether all entries of the second list are in the first one. -/
def entriesIn (bs : List (Value × Value)) : List (Value × Value) → Bool
  | [] => true
  | (key, value) :: as =>
    bs.any (fun (k, v) => same key k && same value v) && entriesIn bs as

end

/-- Whether a key is new among entries. -/
def isNewKey (key : Value) (entries : List (Value × Value)) : Bool :=
  !entries.any fun (k, _) => same k key

/-- The value without its tags. -/
def untagged : Value → Value
  | .tagged _ value => untagged value
  | value => value

/-- The text of a string. -/
def text? (value : Value) : Option String :=
  match value.untagged with
  | .text s => some s
  | _ => none

/-- The items of a list. -/
def items? (value : Value) : Option (List Value) :=
  match value.untagged with
  | .list items => some items
  | _ => none

/-- The entries of a dictionary. -/
def entries? (value : Value) : Option (List (Value × Value)) :=
  match value.untagged with
  | .dict entries => some entries
  | _ => none

/-- The value under a name. -/
def get? (name : String) (value : Value) : Option Value :=
  match value.entries? with
  | some entries =>
    (entries.find? fun (key, _) =>
      match key with
      | .text s => s == name
      | _ => false).map (·.2)
  | none => none

/-- A scalar as a value; none if it is too wide for one. -/
def ofScalar? : Scalar → Option Value
  | .null => some .null
  | .bool b => some (.bool b)
  | .int i => some (.int i)
  | .wide _ => none
  | .double d => some (.double d)
  | .text s => some (.text s)

mutual

/-- A JSON value as a YAML value. -/
def ofJson : Json → Value
  | .null => .null
  | .bool b => .bool b
  | .int i => .int i
  | .double d => .double d
  | .string s => .text s
  | .array items => .list (ofJsonItems items)
  | .object fields => .dict (ofJsonFields fields)

def ofJsonItems : List Json → List Value
  | [] => []
  | item :: items => ofJson item :: ofJsonItems items

def ofJsonFields : List (String × Json) → List (Value × Value)
  | [] => []
  | (name, value) :: fields => (.text name, ofJson value) :: ofJsonFields fields

end

/-- The name of a local tag: an exclamation mark says nothing, except alone. -/
def tagName (tag : List Char) : List Char :=
  match tag with
  | '!' :: c :: cs => c :: cs
  | cs => cs

/-- Wrap a value into its local tag. A tag has to say something. -/
def withTag (tag : Option String) (value : Value) : Option Value :=
  match tag.map String.toList with
  | some ['!'] => none
  | some ('!' :: name) => some (.tagged (String.ofList (tagName name)) value)
  | _ => some value

/-- The value of a leaf. -/
def ofLeaf? : Source.Leaf → Option Value
  | .untyped style tag written =>
    let typeTag := if Source.isLocalTag tag then none else tag
    ((Source.Leaf.scalar? style typeTag written).bind ofScalar?).bind (withTag tag)
  | leaf => leaf.json?.map ofJson

/-- The entries of a dictionary, in which no key comes twice. -/
def distinct? (entries : List (Value × Value)) : Option (List (Value × Value)) :=
  match entries with
  | [] => some []
  | (key, value) :: rest =>
    if isNewKey key rest then (distinct? rest).map ((key, value) :: ·) else none

open Source in
/-- A value, at most `depth` levels deep. -/
def decoder : Decoder Value
  | 0, node => do
    match ← resolve node with
    | .leaf leaf => orMalformed (ofLeaf? leaf)
    | _ => malformed
  | depth + 1, node => do
    match ← resolve node with
    | .leaf leaf => orMalformed (ofLeaf? leaf)
    | .list tag items =>
      let values ← items.mapM (decoder depth)
      orMalformed (withTag tag (.list values))
    | .dict tag entries =>
      let entries ← entries.mapM fun (key, value) => do
        let key ← decoder depth key
        let value ← decoder depth value
        pure (key, value)
      orMalformed ((distinct? entries).bind fun entries => withTag tag (.dict entries))
    | _ => malformed

end Value

end ApiWorkflow.Yaml
