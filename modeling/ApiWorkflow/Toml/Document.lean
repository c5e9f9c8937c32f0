import ApiWorkflow.Toml.Scalar

/-! # TOML documents

A document is a sequence of lines: headers, entries, comments and empty lines.
Values in brackets and braces may go over several lines.
-/

namespace ApiWorkflow.Toml

/-- The text of a comment ends at the end of its line. -/
def dropComment : List Char → List Char
  | '#' :: cs => cs.dropWhile isTextChar
  | cs => cs

/-- Drop blanks, line breaks and comments. -/
def dropSilent : Nat → List Char → List Char
  | 0, cs => cs
  | fuel + 1, cs =>
    match dropGaps cs with
    | '#' :: rest => dropSilent fuel (dropComment ('#' :: rest))
    | cs => cs

/-- The text behind the end of a line, before which a comment may stand. -/
def lineEnd (cs : List Char) : Option (List Char) :=
  match dropComment (dropSpace cs) with
  | [] => some []
  | cs => dropBreak? cs

def isBareChar (c : Char) : Bool :=
  c.isAlphanum || c == '_' || c == '-'

/-- A part of a key: bare or in quotes. -/
def keyPart (cs : List Char) : Option (String × List Char) :=
  match cs with
  | '"' :: _ | '\'' :: _ => (shortText cs).map fun (text, rest) => (String.ofList text, rest)
  | cs =>
    match cs.takeWhile isBareChar with
    | [] => none
    | text => some (String.ofList text, cs.dropWhile isBareChar)

/-- The parts of a key between dots. -/
def keyParts : Nat → Reader (List String)
  | 0, _ => none
  | fuel + 1, cs =>
    (keyPart (dropSpace cs)).bind fun (part, cs) =>
      match dropSpace cs with
      | '.' :: rest => (keyParts fuel rest).map fun (parts, rest) => (part :: parts, rest)
      | rest => some ([part], rest)

/-- A key: the parts that lead to a table, and the last part. -/
structure Key where
  path : List String
  last : String
  deriving Repr, Inhabited

/-- A key. -/
def key (cs : List Char) : Option (Key × List Char) := do
  let (parts, rest) ← keyParts (depthLimit + 1) cs
  let last ← parts.getLast?
  if depthLimit < parts.length then none else some (⟨parts.dropLast, last⟩, rest)

mutual

/-- A value, in which `depth` levels of brackets and braces may be nested. -/
def value (fuel : Nat) (depth : Nat) (cs : List Char) : Option (Value × List Char) :=
  match fuel with
  | 0 => none
  | fuel + 1 =>
    match cs, depth with
    | '[' :: cs, depth + 1 =>
      (items fuel depth [] cs).map fun (values, rest) => (.list values, rest)
    | '{' :: cs, depth + 1 =>
      match dropSpace cs with
      | '}' :: rest => some (.table .inline [], rest)
      | cs => (inlineEntries fuel depth [] cs).map fun (entries, rest) =>
          (.table .inline entries, rest)
    | '"' :: _, _ | '\'' :: _, _ =>
      (anyText cs).map fun (text, rest) => (.text (String.ofList text), rest)
    | 't' :: 'r' :: 'u' :: 'e' :: rest, _ => some (.bool true, rest)
    | 'f' :: 'a' :: 'l' :: 's' :: 'e' :: rest, _ => some (.bool false, rest)
    | _, _ => numberOrMoment cs

/-- The items of a list, behind the bracket or a comma. -/
def items (fuel : Nat) (depth : Nat) (before : List Value) (cs : List Char) :
    Option (List Value × List Char) :=
  match fuel with
  | 0 => none
  | fuel + 1 =>
    match dropSilent cs.length cs with
    | ']' :: rest => some (before.reverse, rest)
    | cs =>
      match value fuel depth cs with
      | none => none
      | some (item, cs) =>
        match dropSilent cs.length cs with
        | ',' :: cs => items fuel depth (item :: before) cs
        | ']' :: rest => some ((item :: before).reverse, rest)
        | _ => none

/-- The entries of a table in braces, behind the brace or a comma. -/
def inlineEntries (fuel : Nat) (depth : Nat) (before : Entries) (cs : List Char) :
    Option (Entries × List Char) :=
  match fuel with
  | 0 => none
  | fuel + 1 =>
    match key cs with
    | some (key, '=' :: cs) =>
      match value fuel depth (dropSpace cs) with
      | none => none
      | some (item, cs) =>
        match before.addAt key.path key.last item with
        | none => none
        | some entries =>
          match dropSpace cs with
          | ',' :: cs => inlineEntries fuel depth entries cs
          | '}' :: rest => some (entries, rest)
          | _ => none
    | _ => none

end

/-- A line that says something. -/
inductive Line where
  | entry (key : Key) (value : Value)
  | header (key : Key)
  | nextHeader (key : Key)
  deriving Repr, Inhabited

/-- A header behind its brackets, and the text behind its line. -/
def headerLine (make : Key → Line) (close : List Char) (cs : List Char) :
    Option (Line × List Char) := do
  let (key, cs) ← key cs
  if cs.take close.length == close then
    let rest ← lineEnd (cs.drop close.length)
    some (make key, rest)
  else none

/-- An entry and the text behind its line. -/
def entryLine (cs : List Char) : Option (Line × List Char) := do
  let (key, cs) ← key cs
  let cs ← expect '=' cs
  let (value, cs) ← value (2 * cs.length + 2) depthLimit (dropSpace cs)
  let rest ← lineEnd cs
  some (.entry key value, rest)

/-- A header or an entry. -/
def line : Reader Line
  | '[' :: '[' :: cs => headerLine .nextHeader [']', ']'] cs
  | '[' :: cs => headerLine .header [']'] cs
  | cs => entryLine cs

/-- The lines of a text that say something. -/
def lines : Nat → List Char → Option (List Line)
  | 0, _ => none
  | fuel + 1, cs =>
    match dropSpace cs with
    | [] => some []
    | '#' :: cs => (lineEnd ('#' :: cs)).bind (lines fuel)
    | cs =>
      match dropBreak? cs with
      | some cs => lines fuel cs
      | none => (line cs).bind fun (first, cs) => (lines fuel cs).map (first :: ·)

/-- The table that lines add up to, where entries belong to the table at `current`. -/
def tableOf : List String → Entries → List Line → Option Entries
  | _, entries, [] => some entries
  | current, entries, .entry key value :: rest =>
    match Entries.change false (fun _ inner => inner.addAt key.path key.last value) current
        .declared entries with
    | some entries => tableOf current entries rest
    | none => none
  | _, entries, .header key :: rest =>
    match entries.declare key.path key.last with
    | some entries => tableOf (key.path ++ [key.last]) entries rest
    | none => none
  | _, entries, .nextHeader key :: rest =>
    match entries.declareNext key.path key.last with
    | some entries => tableOf (key.path ++ [key.last]) entries rest
    | none => none

/-- A text may start with a mark of its byte order. -/
def dropByteOrderMark : List Char → List Char
  | '\uFEFF' :: cs => cs
  | cs => cs

/-- The table of a text. -/
def parse (text : List Char) : Option Entries := do
  let cs := dropByteOrderMark text
  tableOf [] [] (← lines (cs.length + 1) cs)

end ApiWorkflow.Toml
