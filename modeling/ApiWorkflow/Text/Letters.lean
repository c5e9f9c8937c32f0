/-! # The case of letters

Only the letters of ASCII have a case here.
-/

namespace ApiWorkflow.Text

/-- The text in small letters. -/
def lowered (cs : List Char) : List Char :=
  cs.map Char.toLower

/-- The text in capital letters. -/
def raised (cs : List Char) : List Char :=
  cs.map Char.toUpper

/-- Texts that differ at most in the case of their letters. -/
def sameLetters (a b : List Char) : Bool :=
  lowered a == lowered b

end ApiWorkflow.Text
