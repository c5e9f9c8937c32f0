/-! # Characters of a YAML text

The text is read with its line breaks made uniform: a carriage return, with or
without a line feed, and U+0085 are line feeds. U+2028 and U+2029 break lines as
well, but keep their identity.
-/

namespace ApiWorkflow.Yaml

/-- A character that a text may contain. -/
def isAllowed (c : Char) : Bool :=
  let n := c.toNat
  n == 0x09 || n == 0x0A || n == 0x0D || (0x20 ≤ n && n ≤ 0x7E) || n == 0x85 ||
    (0xA0 ≤ n && n ≤ 0xFFFD) || 0x10000 ≤ n

/-- The text with uniform line breaks. -/
def uniform : List Char → List Char
  | [] => []
  | '\r' :: '\n' :: cs => '\n' :: uniform cs
  | '\r' :: cs => '\n' :: uniform cs
  | '\u0085' :: cs => '\n' :: uniform cs
  | c :: cs => c :: uniform cs

/-- A line break in uniform text. -/
def isBreak (c : Char) : Bool :=
  c == '\n' || c == '\u2028' || c == '\u2029'

/-- A space or a tab. -/
def isGap (c : Char) : Bool :=
  c == ' ' || c == '\t'

/-- The text ends here, or goes on with a gap or a line break. -/
def endsWord : List Char → Bool
  | [] => true
  | c :: _ => isGap c || isBreak c

/-- A character of a name. -/
def isNameChar (c : Char) : Bool :=
  c.isAlphanum || c == '_' || c == '-'

/-- A line that starts with this text begins or ends a document. -/
def isDocumentMark : List Char → Bool
  | '-' :: '-' :: '-' :: cs => endsWord cs
  | '.' :: '.' :: '.' :: cs => endsWord cs
  | _ => false

/-- The rest of a text, and where in the whole text it starts. -/
structure Cursor where
  rest : List Char
  line : Nat
  column : Nat
  deriving Repr, DecidableEq, Inhabited

/-- The cursor behind `n` characters, none of which breaks a line. -/
def Cursor.skip (n : Nat) (c : Cursor) : Cursor :=
  { c with rest := c.rest.drop n, column := c.column + n }

/-- What stands between two words of a scalar. -/
inductive Between where
  | nothing
  /-- Spaces and tabs, the last one first. -/
  | gap (held : List Char)
  /-- Line breaks: the first one, unless it was escaped, and the others, the last
      one first. -/
  | breaks (first : Option Char) (more : List Char)
  deriving Repr, DecidableEq, Inhabited

namespace Between

def isNothing : Between → Bool
  | .nothing => true
  | _ => false

def hasBreak : Between → Bool
  | .breaks .. => true
  | _ => false

/-- Add a space or a tab; behind a line break it only indents. -/
def addGap (c : Char) : Between → Between
  | .nothing => .gap [c]
  | .gap held => .gap (c :: held)
  | .breaks first more => .breaks first more

/-- Add a line break; it swallows the gap before it. -/
def addBreak (c : Char) : Between → Between
  | .breaks first more => .breaks first (c :: more)
  | _ => .breaks (some c) []

/-- Put what stands between two words behind a reversed text: a single line break
    is folded into a space, and of several the first one is dropped. -/
def flush (text : List Char) : Between → List Char
  | .nothing => text
  | .gap held => held ++ text
  | .breaks (some '\n') [] => ' ' :: text
  | .breaks (some '\n') more => more ++ text
  | .breaks (some c) more => more ++ c :: text
  | .breaks none more => more ++ text

end Between

end ApiWorkflow.Yaml
