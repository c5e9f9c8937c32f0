import ApiWorkflow.Yaml.Token
import ApiWorkflow.Yaml.Token.Block
import ApiWorkflow.Yaml.Token.Plain
import ApiWorkflow.Yaml.Token.Quoted
import ApiWorkflow.Yaml.Token.Tag

/-! # The tokens of a text

A token may turn out to be a key only when the colon behind it is met, and then
the tokens that announce the key stand before it. So a token that may start a
key waits until that is settled: a key ends on the line where it starts and
within 1024 characters. `Token.ofText` gives the tokens in the order in which
they are settled; the list ends with `streamEnd` if the whole text makes sense,
and otherwise with the last token settled before the fault.
-/

namespace ApiWorkflow.Yaml

open Source

/-- A token that may start a key: its number, where it stands, and whether it has
    to be a key because its column is the indentation of a mapping. -/
structure KeyCandidate where
  token : Nat
  line : Nat
  column : Nat
  required : Bool
  deriving Repr, DecidableEq, Inhabited

/-- The tokens read so far and what decides on the next one. -/
structure Scan where
  cursor : Cursor
  /-- The columns of the open block collections, the innermost first. -/
  indents : List Nat
  /-- The candidate of each open bracket and of the text outside of them, the
      innermost first. -/
  keys : List (Option KeyCandidate)
  /-- Whether a key may start here. -/
  keyAllowed : Bool
  /-- How many tokens are settled. -/
  settled : Nat
  /-- The tokens that wait. -/
  waiting : List Token
  ended : Bool
  deriving Repr, Inhabited

namespace Scan

/-- The scan of a whole text. -/
def start (cs : List Char) : Scan :=
  ⟨⟨cs, 0, 0⟩, [], [none], true, 0, [], false⟩

/-- Inside of brackets. -/
def inFlow (s : Scan) : Bool :=
  1 < s.keys.length

/-- The indentation of the innermost block collection, `-1` outside of all. -/
def indent (s : Scan) : Int :=
  match s.indents with
  | column :: _ => column
  | [] => -1

/-- Add a token. -/
def push (token : Token) (s : Scan) : Scan :=
  { s with waiting := s.waiting ++ [token] }

/-- Move on behind `n` characters of one line. -/
def skip (n : Nat) (s : Scan) : Scan :=
  { s with cursor := s.cursor.skip n }

/-- Say whether a key may start behind this. -/
def allowKey (allowed : Bool) (s : Scan) : Scan :=
  { s with keyAllowed := allowed }

/-- Give up the candidate of this level; an error if it has to be a key. -/
def dropKey (s : Scan) : Option Scan :=
  match s.keys with
  | some key :: keys => if key.required then none else some { s with keys := none :: keys }
  | _ => some s

/-- The next token may start a key. -/
def markKey (s : Scan) : Option Scan :=
  if s.keyAllowed then do
    let key : KeyCandidate :=
      { token := s.settled + s.waiting.length
        line := s.cursor.line
        column := s.cursor.column
        required := !s.inFlow && s.indent == s.cursor.column }
    let s ← s.dropKey
    some { s with keys := some key :: s.keys.drop 1 }
  else some s

/-- A candidate on an earlier line, or too far back, is none any more. -/
def refreshKey (cursor : Cursor) : Option KeyCandidate → Option (Option KeyCandidate)
  | none => some none
  | some key =>
    if key.line < cursor.line || key.column + 1024 < cursor.column then
      if key.required then none else some none
    else some (some key)

/-- Give up the candidates that are none any more. -/
def refreshKeys (s : Scan) : Option Scan :=
  (s.keys.mapM (refreshKey s.cursor)).map fun keys => { s with keys := keys }

/-- Close the block collections that are indented further than `column`. -/
def unroll (column : Int) (s : Scan) : Scan :=
  if s.inFlow then s
  else
    let closed := s.indents.takeWhile fun (indent : Nat) => column < indent
    { s with
      indents := s.indents.drop closed.length
      waiting := s.waiting ++ List.replicate closed.length .blockEnd }

/-- Open a block collection at `column`, unless one is open there: its start token
    goes in front of the waiting tokens from number `place` on. -/
def roll (column : Nat) (place : Nat) (token : Token) (s : Scan) : Scan :=
  if !s.inFlow && s.indent < column then
    { s with
      indents := column :: s.indents
      waiting := s.waiting.take place ++ token :: s.waiting.drop place }
  else s

/-- Open a block collection at the cursor. -/
def rollHere (token : Token) (s : Scan) : Scan :=
  s.roll s.cursor.column s.waiting.length token

/-- Pass over blanks, comments and line breaks. A tab is no indentation: where a
    key may start it is passed over only inside of brackets. A byte-order mark may
    start a line, where it takes a column. -/
def toToken (inFlow : Bool) (comment allowed : Bool) (line column : Nat) :
    List Char → Cursor × Bool
  | [] => (⟨[], line, column⟩, allowed)
  | c :: cs =>
    if isBreak c then toToken inFlow false (allowed || !inFlow) (line + 1) 0 cs
    else if comment then toToken inFlow true allowed line (column + 1) cs
    else if c == ' ' || (c == '\t' && (inFlow || !allowed)) || (c == '\ufeff' && column == 0) then
      toToken inFlow false allowed line (column + 1) cs
    else if c == '#' then toToken inFlow true allowed line (column + 1) cs
    else (⟨c :: cs, line, column⟩, allowed)

/-- Pass over everything before the next token. -/
def advance (s : Scan) : Scan :=
  let (cursor, allowed) :=
    toToken s.inFlow false s.keyAllowed s.cursor.line s.cursor.column s.cursor.rest
  { s with cursor := cursor, keyAllowed := allowed }

/-- The cursor on a line of its own. -/
def newLine (c : Cursor) : Cursor :=
  if c.column == 0 then c else { c with line := c.line + 1, column := 0 }

/-- The end of the text, where no candidate is left. -/
def readEnd (s : Scan) : Option Scan := do
  let s ← ({ s with cursor := newLine s.cursor }.unroll (-1)).dropKey
  some { (s.allowKey false).push .streamEnd with ended := true }

/-- A directive, on a line of its own. -/
def readDirective (s : Scan) : Option Scan := do
  let s ← (s.unroll (-1)).dropKey
  let (name, cs) ← Token.directiveName (s.cursor.rest.drop 1)
  let (token, cs) ←
    if name == ['Y', 'A', 'M', 'L'] then
      (Token.versionParts cs).map fun (major, minor, cs) => (Token.versionDirective major minor, cs)
    else if name == ['T', 'A', 'G'] then
      (Token.tagDirectiveParts cs).map fun (handle, leading, cs) =>
        (Token.tagDirective (String.ofList handle) (String.ofList leading), cs)
    else none
  let cs ← Token.endDirective cs
  some ({ s with cursor := ⟨cs, s.cursor.line + 1, 0⟩ }.allowKey false |>.push token)

/-- A mark that starts or ends a document. -/
def readMark (token : Token) (s : Scan) : Option Scan := do
  let s ← (s.unroll (-1)).dropKey
  some ((s.allowKey false).skip 3 |>.push token)

/-- An opening bracket, which may start a key. -/
def readOpening (token : Token) (s : Scan) : Option Scan := do
  let s ← s.markKey
  some ({ s with keys := none :: s.keys }.allowKey true |>.skip 1 |>.push token)

/-- A closing bracket. -/
def readClosing (token : Token) (s : Scan) : Option Scan := do
  let s ← s.dropKey
  let keys := if s.inFlow then s.keys.drop 1 else s.keys
  some ({ s with keys := keys }.allowKey false |>.skip 1 |>.push token)

/-- A comma inside of brackets. -/
def readComma (s : Scan) : Option Scan := do
  let s ← s.dropKey
  some ((s.allowKey true).skip 1 |>.push .flowEntry)

/-- The dash of a sequence. -/
def readDash (s : Scan) : Option Scan := do
  if !s.inFlow && !s.keyAllowed then none
  else
    let s ← (s.rollHere .blockSequenceStart).dropKey
    some ((s.allowKey true).skip 1 |>.push .blockEntry)

/-- The question mark of an explicit key. -/
def readQuestion (s : Scan) : Option Scan := do
  if !s.inFlow && !s.keyAllowed then none
  else
    let s ← (s.rollHere .blockMappingStart).dropKey
    some ((s.allowKey (!s.inFlow)).skip 1 |>.push .key)

/-- The colon of a value: if a candidate is open, it is a key now. -/
def readColon (s : Scan) : Option Scan :=
  match s.keys with
  | some key :: keys =>
    let place := key.token - s.settled
    let s := { s with
      keys := none :: keys
      waiting := s.waiting.take place ++ Token.key :: s.waiting.drop place }
    some ((s.roll key.column place .blockMappingStart).allowKey false |>.skip 1 |>.push .value)
  | _ =>
    if !s.inFlow && !s.keyAllowed then none
    else
      let s := s.rollHere .blockMappingStart
      some ((s.allowKey (!s.inFlow)).skip 1 |>.push .value)

/-- An anchor or an alias. -/
def readAnchor (token : String → Token) (s : Scan) : Option Scan := do
  let s ← s.markKey
  let (name, _) ← Token.anchorName (s.cursor.rest.drop 1)
  some ((s.allowKey false).skip (name.length + 1) |>.push (token (String.ofList name)))

/-- A tag. -/
def readTag (s : Scan) : Option Scan := do
  let s ← s.markKey
  let (handle, suffix, rest) ← Token.tagParts s.inFlow s.cursor.rest
  let taken := s.cursor.rest.length - rest.length
  some ((s.allowKey false).skip taken
    |>.push (.tag (String.ofList handle) (String.ofList suffix)))

/-- A block scalar. -/
def readBlock (literal : Bool) (s : Scan) : Option Scan := do
  let s ← s.dropKey
  let (text, cursor) ← Token.block literal s.indent s.cursor.line (s.cursor.rest.drop 1)
  let style := if literal then Style.literal else .quoted
  some ({ s with cursor := cursor }.allowKey true |>.push (.scalar style (String.ofList text)))

/-- A scalar in quotes. -/
def readQuoted (single : Bool) (s : Scan) : Option Scan := do
  let s ← s.markKey
  let cs := s.cursor.rest.drop 1
  let column := s.cursor.column + 1
  let (text, cursor) ←
    if single then Token.singleQuoted [] .nothing s.cursor.line column cs
    else Token.doubleQuoted [] .nothing none s.cursor.line column cs
  some ({ s with cursor := cursor }.allowKey false |>.push (.scalar .quoted (String.ofList text)))

/-- A bare scalar. -/
def readPlain (s : Scan) : Option Scan := do
  let s ← s.markKey
  let c := s.cursor
  let (text, cursor, broken) ←
    Token.plain s.inFlow (s.indent + 1) [] .nothing c.line c.column c.rest
  some ({ s with cursor := cursor }.allowKey broken |>.push (.scalar .plain (String.ofList text)))

/-- A sign that starts no bare scalar. -/
def isSign (c : Char) : Bool :=
  ['-', '?', ':', ',', '[', ']', '{', '}', '#', '&', '*', '!', '|', '>', '\'', '"', '%', '@',
    '\x60'].contains c

/-- Whether a bare scalar starts with `c`: a dash may start one that goes on, and
    so may a question mark or a colon outside of brackets. -/
def startsPlain (inFlow : Bool) (c : Char) (cs : List Char) : Bool :=
  !(isGap c || isBreak c || isSign c) ||
    (c == '-' && !(cs.head?.any isGap)) ||
    (!inFlow && (c == '?' || c == ':') && !endsWord cs)

/-- Read the token at the cursor. -/
def readToken (s : Scan) : Option Scan :=
  match s.cursor.rest with
  | [] => s.readEnd
  | c :: cs =>
    let lineStart := s.cursor.column == 0
    if lineStart && c == '%' then s.readDirective
    else if lineStart && isDocumentMark (c :: cs) then
      s.readMark (if c == '-' then .documentStart else .documentEnd)
    else if c == '[' then s.readOpening .flowSequenceStart
    else if c == '{' then s.readOpening .flowMappingStart
    else if c == ']' then s.readClosing .flowSequenceEnd
    else if c == '}' then s.readClosing .flowMappingEnd
    else if c == ',' then s.readComma
    else if c == '-' && endsWord cs then s.readDash
    else if c == '?' && (s.inFlow || endsWord cs) then s.readQuestion
    else if c == ':' && (s.inFlow || endsWord cs) then s.readColon
    else if c == '*' then s.readAnchor .alias
    else if c == '&' then s.readAnchor .anchor
    else if c == '!' then s.readTag
    else if c == '|' && !s.inFlow then s.readBlock true
    else if c == '>' && !s.inFlow then s.readBlock false
    else if c == '\'' then s.readQuoted true
    else if c == '"' then s.readQuoted false
    else if startsPlain s.inFlow c cs then s.readPlain
    else none

/-- Read the next token. -/
def next (s : Scan) : Option Scan := do
  let s ← s.advance.refreshKeys
  let s ← (s.unroll s.cursor.column).readToken
  s.refreshKeys

/-- How many of the waiting tokens are settled: all before the first candidate. -/
def settledCount (s : Scan) : Nat :=
  s.keys.foldl
    (fun count key => match key with
      | some key => min count (key.token - s.settled)
      | none => count)
    s.waiting.length

/-- Take out the settled tokens. -/
def settle (s : Scan) : List Token × Scan :=
  let count := s.settledCount
  (s.waiting.take count,
    { s with settled := s.settled + count, waiting := s.waiting.drop count })

/-- The tokens that `bound` steps settle. -/
def tokens : Nat → Scan → List Token
  | 0, _ => []
  | bound + 1, s =>
    match s.next with
    | none => []
    | some s =>
      let (ready, s) := s.settle
      if s.ended then ready else ready ++ tokens bound s

end Scan

/-- The tokens of a text. Every step takes a character or ends the text. -/
def Token.ofText (cs : List Char) : List Token :=
  if cs.all isAllowed then
    let cs := uniform cs
    (Scan.start cs).tokens (cs.length + 2)
  else []

end ApiWorkflow.Yaml
