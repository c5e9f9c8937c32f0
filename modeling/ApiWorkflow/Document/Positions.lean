import ApiWorkflow.Document.Model
import ApiWorkflow.Text.Lines
import ApiWorkflow.Text.Search

/-! # Where a text declares workflows and steps

A line declares an id if it starts with the key, perhaps behind a dash, a brace
and a quote, and the id follows the colon. Only the keys in the leftmost column
count, and of several declarations of an id the last one does.
-/

namespace ApiWorkflow.Positions

open Text

def isQuote (c : Char) : Bool :=
  c == '"' || c == '\''

/-- A character of an id. -/
def isIdChar (c : Char) : Bool :=
  !(isQuote c || isBlank c || c == ',' || c == '#' || c == '{' || c == '}')

/-- The text behind a quote, if there is one. -/
def skipQuote : List Char → List Char
  | c :: cs => if isQuote c then cs else c :: cs
  | [] => []

/-- The text behind a dash with blanks, if there is one. -/
def skipDash : List Char → List Char
  | '-' :: c :: cs => if isBlank c then trimStart cs else '-' :: c :: cs
  | cs => cs

/-- The text behind an opening brace with blanks, if there is one. -/
def skipBrace : List Char → List Char
  | '{' :: cs => trimStart cs
  | cs => cs

/-- The text from the key on. -/
def toKey (line : List Char) : List Char :=
  skipQuote (skipBrace (skipDash (trimStart line)))

/-- The id behind the colon that follows the key. -/
def idBehind (cs : List Char) : Option (List Char) :=
  match trimStart (skipQuote cs) with
  | ':' :: cs =>
    match (skipQuote (trimStart cs)).takeWhile isIdChar with
    | [] => none
    | id => some id
  | _ => none

/-- The number of bytes of a text. -/
def width (cs : List Char) : Nat :=
  cs.foldl (fun total c => total + c.utf8Size) 0

/-- The column of the key and the id that a line declares. -/
def declared? (key line : List Char) : Option (Nat × List Char) :=
  let fromKey := toKey line
  match stripPiece key fromKey with
  | none => none
  | some behind => (idBehind behind).map fun id => (width line - width fromKey, id)

/-- All declarations of a text: the number of the line, the column, and the id. -/
def declarations (key : List Char) (lines : List (List Char)) : List (Nat × Nat × List Char) :=
  lines.zipIdx.filterMap fun (line, number) =>
    (declared? key line).map fun (column, id) => (number, column, id)

/-- The declarations in the leftmost column. -/
def leftmost (found : List (Nat × Nat × List Char)) : List (Nat × Nat × List Char) :=
  match (found.map (·.2.1)).min? with
  | some column => found.filter (·.2.1 == column)
  | none => []

/-- The lines of the ids under one key, each under a name that starts with `mark`. -/
def ofKey (mark : String) (key : List Char) (lines : List (List Char)) : List (String × Nat) :=
  (leftmost (declarations key lines)).map fun (number, _, id) =>
    (mark ++ String.ofList id, number)

/-- The lines that declare workflows and steps. -/
def scan (text : List Char) : Fields Nat :=
  let lines := lines text
  Fields.ofList
    (ofKey Document.workflowMark "workflowId".toList lines ++
      ofKey Document.stepMark "stepId".toList lines)

end ApiWorkflow.Positions
