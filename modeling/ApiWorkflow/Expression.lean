import ApiWorkflow.Text.Search

/-! # Runtime expressions

An expression is a dollar sign and a keyword, perhaps followed by a dot and a
reference. A text may hold any number of them.
-/

namespace ApiWorkflow

/-- What an expression refers to. -/
inductive ExpressionRoot where
  | inputs
  | steps
  | workflows
  | outputs
  | components
  | sourceDescriptions
  | response
  | request
  | statusCode
  | url
  | method
  deriving Repr, DecidableEq, Inhabited

namespace ExpressionRoot

def all : List ExpressionRoot :=
  [.inputs, .steps, .workflows, .outputs, .components, .sourceDescriptions, .response, .request,
    .statusCode, .url, .method]

def keyword : ExpressionRoot → List Char
  | .inputs => "inputs".toList
  | .steps => "steps".toList
  | .workflows => "workflows".toList
  | .outputs => "outputs".toList
  | .components => "components".toList
  | .sourceDescriptions => "sourceDescriptions".toList
  | .response => "response".toList
  | .request => "request".toList
  | .statusCode => "statusCode".toList
  | .url => "url".toList
  | .method => "method".toList

end ExpressionRoot

/-- An expression in a text. -/
structure Expression where
  root : ExpressionRoot
  reference : List Char
  deriving Repr, DecidableEq, Inhabited

namespace Expression

/-- A character of a reference. -/
def isReferenceChar (c : Char) : Bool :=
  c.isAlphanum || c == '_' || c == '-' || c == '.' || c == '[' || c == ']' || c == '#' || c == '/'

/-- The text without the dots at its end. -/
def dropDots (cs : List Char) : List Char :=
  (cs.reverse.dropWhile (· == '.')).reverse

/-- The reference behind a keyword, empty if there is none. -/
def referenceOf : List Char → List Char
  | '.' :: cs => dropDots (cs.takeWhile isReferenceChar)
  | _ => []

/-- The expression whose dollar sign stands right before the text, if there is one. -/
def behindDollar (cs : List Char) : Option Expression :=
  ExpressionRoot.all.findSome? fun root =>
    (Text.stripPiece root.keyword cs).map fun rest => ⟨root, referenceOf rest⟩

/-- The expressions of a text, from left to right. No expression holds a second
    dollar sign. -/
def scan : List Char → List Expression
  | [] => []
  | c :: cs =>
    if c = '$' then (behindDollar cs).toList ++ scan cs else scan cs

/-- The first part of the reference, if it has one. -/
def target? (e : Expression) : Option (List Char) :=
  match e.reference.takeWhile (· != '.') with
  | [] => none
  | head => some head

end Expression

end ApiWorkflow
