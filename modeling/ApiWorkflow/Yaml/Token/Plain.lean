import ApiWorkflow.Yaml.Characters

/-! # Bare scalars

A bare scalar ends before a colon that ends a word, before a comment, before a
line that is not indented far enough and, inside brackets, before punctuation.
-/

namespace ApiWorkflow.Yaml.Token

/-- Punctuation that ends a bare scalar inside brackets. -/
def isFlowMark (c : Char) : Bool :=
  c == ',' || c == '[' || c == ']' || c == '{' || c == '}'

/-- A colon inside brackets that punctuation follows directly. -/
def isStrayColon (c : Char) : List Char → Bool
  | [] => false
  | d :: _ => c == ':' && (isFlowMark d || d == '?')

/-- A bare scalar: its text, the cursor behind the blanks that follow it, and
    whether a line break is among those blanks. The text read so far is held
    reversed; `indent` is the least column of a further line. -/
def plain (inFlow : Bool) (indent : Int) (text : List Char) (between : Between) (line column : Nat) :
    List Char → Option (List Char × Cursor × Bool)
  | [] => some (text.reverse, ⟨[], line, column⟩, between.hasBreak)
  | c :: cs =>
    if isBreak c then plain inFlow indent text (between.addBreak c) (line + 1) 0 cs
    else if isGap c then
      if between.hasBreak && c == '\t' && column < indent then none
      else plain inFlow indent text (between.addGap c) line (column + 1) cs
    else if !between.isNothing &&
        ((!inFlow && column < indent) || (column == 0 && isDocumentMark (c :: cs)) || c == '#') then
      some (text.reverse, ⟨c :: cs, line, column⟩, between.hasBreak)
    else if inFlow && isStrayColon c cs then none
    else if (c == ':' && endsWord cs) || (inFlow && isFlowMark c) then
      some (text.reverse, ⟨c :: cs, line, column⟩, between.hasBreak)
    else plain inFlow indent (c :: between.flush text) .nothing line (column + 1) cs

end ApiWorkflow.Yaml.Token
