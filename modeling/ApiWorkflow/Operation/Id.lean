import ApiWorkflow.Text.Blank
import ApiWorkflow.Text.Lines
import ApiWorkflow.Text.Search

/-! # Operation ids in text

A step may name the source that describes its operation in front of the id. A
line of text declares an id behind the word `operationId` and a colon, each
perhaps in quotes.
-/

namespace ApiWorkflow.OperationId

open Text

/-- What stands in front of the name of a source. -/
def qualifier : List Char := "$sourceDescriptions.".toList

/-- The id without the name of a source in front of it. -/
def bareChars (id : List Char) : List Char :=
  match stripPiece qualifier id with
  | some rest =>
    match splitAtFirst ['.'] rest with
    | some (_, bare) => bare
    | none => id
  | none => id

/-- The id without the name of a source in front of it. -/
def bare (id : String) : String :=
  String.ofList (bareChars id.toList)

/-- The word in front of an id. -/
def keyword : List Char := "operationId".toList

def isQuote (c : Char) : Bool :=
  c == '"' || c == '\''

/-- A character that ends an id. -/
def isEnd (c : Char) : Bool :=
  isBlank c || isQuote c || c == ',' || c == '}' || c == '#'

/-- The id behind the keyword. -/
def behindKeyword (rest : List Char) : Option (List Char) :=
  match trimStart (rest.dropWhile isQuote) with
  | ':' :: rest =>
    match ((trimStart rest).dropWhile isQuote).takeWhile fun c => !isEnd c with
    | [] => none
    | id => some id
  | _ => none

/-- The id that a line declares. -/
def declared? (line : List Char) : Option (List Char) :=
  match splitAtFirst keyword line with
  | some (_, rest) => behindKeyword rest
  | none => none

/-- The first line of a text that declares an id. -/
def lineOf? (text id : List Char) : Option Nat :=
  (lines text).findIdx? fun line => declared? line == some id

end ApiWorkflow.OperationId
