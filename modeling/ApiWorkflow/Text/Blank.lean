/-! # Blank characters

White space as the Unicode property `White_Space` has it, and the trimming of
text by it. Everything that this library trims is trimmed by this class.
-/

namespace ApiWorkflow.Text

/-- A character with the Unicode property `White_Space`. -/
def isBlank (c : Char) : Bool :=
  let n := c.toNat
  (9 ≤ n && n ≤ 13) || n == 0x20 || n == 0x85 || n == 0xA0 || n == 0x1680 ||
    (0x2000 ≤ n && n ≤ 0x200A) || n == 0x2028 || n == 0x2029 || n == 0x202F ||
    n == 0x205F || n == 0x3000

/-- The text without its leading blanks. -/
def trimStart (cs : List Char) : List Char :=
  cs.dropWhile isBlank

/-- The text without its trailing blanks. -/
def trimEnd (cs : List Char) : List Char :=
  (cs.reverse.dropWhile isBlank).reverse

/-- The text without its surrounding blanks. -/
def trim (cs : List Char) : List Char :=
  trimEnd (trimStart cs)

/-- Nothing is left after trimming. -/
def isBlankText (cs : List Char) : Bool :=
  (trim cs).isEmpty

/-- `trim` on strings. -/
def trimmed (s : String) : String :=
  String.ofList (trim s.toList)

/-- `isBlankText` on strings. -/
def isBlankString (s : String) : Bool :=
  isBlankText s.toList

end ApiWorkflow.Text
