import ApiWorkflow.Json.Value

/-! # Documents as they are written

A document tree keeps what is written apart from what it means: a leaf of a
self-describing notation has its type, any other leaf only its text. Where the
text stops making sense the tree is cut, so that whoever reads it in the order
of the text meets everything before the cut first.
-/

namespace ApiWorkflow.Source

/-- How an untyped leaf is written. -/
inductive Style where
  /-- Bare, so that its text decides on its type. -/
  | plain
  /-- A block that keeps its line breaks. -/
  | literal
  /-- In quotes, or as a folded block. -/
  | quoted
  deriving Repr, DecidableEq, Inhabited

/-- The end of a branch. -/
inductive Leaf where
  | null
  | bool (b : Bool)
  /-- A number, none if it is out of range. -/
  | number (value : Option Json)
  /-- A string, none if its escapes spell no text. -/
  | string (value : Option String)
  /-- Text whose type is left to its reader, perhaps with a tag. -/
  | untyped (style : Style) (tag : Option String) (text : String)
  /-- No document at all. -/
  | nothing
  deriving Repr, Inhabited

/-- A document tree. -/
inductive Node where
  | leaf (leaf : Leaf)
  | list (tag : Option String) (items : List Node)
  | dict (tag : Option String) (entries : List (Node × Node))
  /-- The node marked with this number. -/
  | alias (id : Nat)
  /-- The rest of the text makes no sense. -/
  | cut
  deriving Repr, Inhabited

end ApiWorkflow.Source

namespace ApiWorkflow

open Source

/-- A document with what its reader has to know about it. -/
structure Source where
  root : Node
  /-- Whether a record may be written as the list of its fields. -/
  positional : Bool
  /-- How deeply values may be nested. -/
  depth : Nat
  /-- The nodes that aliases stand for. -/
  anchors : List (Nat × Node)
  /-- How many aliases may be followed. -/
  aliasLimit : Nat
  /-- Whether the text is a whole document with nothing behind it. -/
  intact : Bool
  deriving Repr, Inhabited

end ApiWorkflow
