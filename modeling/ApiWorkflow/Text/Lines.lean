/-! # Lines of a text

A line ends at a line feed, and a carriage return right before that line feed
belongs to the ending. The last line need not be ended; an empty rest after the
last line feed is no line.
-/

namespace ApiWorkflow.Text

/-- Drop one carriage return from the front of a reversed line. -/
def dropReturn : List Char → List Char
  | '\r' :: cs => cs
  | cs => cs

/-- `lines` behind an unfinished line, which is held reversed. -/
def linesAfter : List Char → List Char → List (List Char)
  | [], [] => []
  | held, [] => [held.reverse]
  | held, c :: cs =>
    if c = '\n' then (dropReturn held).reverse :: linesAfter [] cs
    else linesAfter (c :: held) cs

/-- The lines of a text, without their endings. -/
def lines (cs : List Char) : List (List Char) :=
  linesAfter [] cs

end ApiWorkflow.Text
