import ApiWorkflow.Json.Number
import ApiWorkflow.Source.Node
import ApiWorkflow.Text.Digits

/-! # Reading JSON text

`Json.source` turns text into a document tree. Strings and numbers are checked
for their form only: a string whose escapes spell no text, or a number out of
range, is a fault of whoever needs its value.
-/

namespace ApiWorkflow.Json

open Source

/-- White space between the parts of a text. -/
def isSpace (c : Char) : Bool :=
  c == ' ' || c == '\n' || c == '\t' || c == '\r'

def skipSpace (cs : List Char) : List Char :=
  cs.dropWhile isSpace

/-- The value of four hexadecimal digits. -/
def hex4? (a b c d : Char) : Option Nat :=
  Text.numeral? 16 [a, b, c, d]

/-- The character of a one-letter escape. -/
def escaped? : Char → Option Char
  | '"' => some '"'
  | '\\' => some '\\'
  | '/' => some '/'
  | 'b' => some '\x08'
  | 'f' => some '\x0c'
  | 'n' => some '\n'
  | 'r' => some '\r'
  | 't' => some '\t'
  | _ => none

/-- A character of a string, or a 16-bit unit written as an escape. -/
inductive StringPart where
  | char (c : Char)
  | unit (n : Nat)
  deriving Repr, DecidableEq

/-- The parts of a string up to its closing quote, and the text behind it. -/
def stringParts : List Char → Option (List StringPart × List Char)
  | [] => none
  | '"' :: cs => some ([], cs)
  | '\\' :: 'u' :: a :: b :: c :: d :: cs =>
    match hex4? a b c d, stringParts cs with
    | some n, some (parts, rest) => some (.unit n :: parts, rest)
    | _, _ => none
  | '\\' :: e :: cs =>
    match escaped? e, stringParts cs with
    | some c, some (parts, rest) => some (.char c :: parts, rest)
    | _, _ => none
  | c :: cs =>
    if c.toNat < 0x20 || c == '\\' then none
    else (stringParts cs).map fun (parts, rest) => (.char c :: parts, rest)

/-- The text of a string: two units that are a surrogate pair are one character,
    and a surrogate without its partner is none. -/
def joinParts : List StringPart → Option (List Char)
  | [] => some []
  | .char c :: parts => (joinParts parts).map (c :: ·)
  | .unit n :: parts =>
    if 0xD800 ≤ n && n ≤ 0xDBFF then
      match parts with
      | .unit m :: parts =>
        if 0xDC00 ≤ m && m ≤ 0xDFFF then
          (joinParts parts).map (Char.ofNat (0x10000 + (n - 0xD800) * 0x400 + (m - 0xDC00)) :: ·)
        else none
      | _ => none
    else if 0xDC00 ≤ n && n ≤ 0xDFFF then none
    else (joinParts parts).map (Char.ofNat n :: ·)

/-- A string behind its opening quote. -/
def readString (cs : List Char) : Option (Leaf × List Char) :=
  (stringParts cs).map fun (parts, rest) =>
    (.string ((joinParts parts).map String.ofList), rest)

def isDigit (c : Char) : Bool :=
  '0' ≤ c && c ≤ '9'

/-- The digits at the start of a text, and the rest. -/
def takeDigits (cs : List Char) : List Nat × List Char :=
  ((cs.takeWhile isDigit).map fun c => c.toNat - 0x30, cs.dropWhile isDigit)

/-- The fraction of a number: at least one digit has to follow the point. -/
def readFraction : List Char → Option (Option (List Nat) × List Char)
  | '.' :: cs =>
    match takeDigits cs with
    | ([], _) => none
    | (digits, rest) => some (some digits, rest)
  | cs => some (none, cs)

/-- The digits of an exponent. -/
def readExponentDigits (down : Bool) (cs : List Char) :
    Option (Option (Bool × List Nat) × List Char) :=
  match takeDigits cs with
  | ([], _) => none
  | (digits, rest) => some (some (down, digits), rest)

/-- The exponent of a number. -/
def readExponent : List Char → Option (Option (Bool × List Nat) × List Char)
  | c :: cs =>
    if c == 'e' || c == 'E' then
      match cs with
      | '+' :: cs => readExponentDigits false cs
      | '-' :: cs => readExponentDigits true cs
      | cs => readExponentDigits false cs
    else some (none, c :: cs)
  | [] => some (none, [])

/-- A number behind its sign. A leading zero stands alone. -/
def readNumber (negative : Bool) (cs : List Char) : Option (Leaf × List Char) := do
  let (whole, rest) := takeDigits cs
  match whole with
  | [] => none
  | 0 :: _ :: _ => none
  | _ =>
    let (fraction, rest) ← readFraction rest
    let (exponent, rest) ← readExponent rest
    pure (.number (NumberText.value? ⟨negative, whole, fraction, exponent⟩), rest)

/-- A value that is no list and no dictionary. -/
def readLeaf : List Char → Option (Leaf × List Char)
  | 'n' :: 'u' :: 'l' :: 'l' :: cs => some (.null, cs)
  | 't' :: 'r' :: 'u' :: 'e' :: cs => some (.bool true, cs)
  | 'f' :: 'a' :: 'l' :: 's' :: 'e' :: cs => some (.bool false, cs)
  | '"' :: cs => readString cs
  | '-' :: cs => readNumber true cs
  | cs => readNumber false cs

mutual

/-- The value at the start of a text and the text behind it; no rest if the value
    is cut. The number bounds the steps: two for each character are enough. -/
def readValue : Nat → List Char → Node × Option (List Char)
  | 0, _ => (.cut, none)
  | bound + 1, cs =>
    match skipSpace cs with
    | '[' :: cs =>
      match skipSpace cs with
      | ']' :: rest => (.list none [], some rest)
      | cs =>
        let (items, rest) := readItems bound cs
        (.list none items, rest)
    | '{' :: cs =>
      match skipSpace cs with
      | '}' :: rest => (.dict none [], some rest)
      | cs =>
        let (entries, rest) := readEntries bound cs
        (.dict none entries, rest)
    | cs =>
      match readLeaf cs with
      | some (leaf, rest) => (.leaf leaf, some rest)
      | none => (.cut, none)

/-- The items of a list, up to its closing bracket. -/
def readItems : Nat → List Char → List Node × Option (List Char)
  | 0, _ => ([.cut], none)
  | bound + 1, cs =>
    match readValue bound cs with
    | (item, none) => ([item], none)
    | (item, some rest) =>
      match skipSpace rest with
      | ',' :: rest =>
        let (items, rest) := readItems bound rest
        (item :: items, rest)
      | ']' :: rest => ([item], some rest)
      | _ => ([item, .cut], none)

/-- The entries of a dictionary, up to its closing brace. -/
def readEntries : Nat → List Char → List (Node × Node) × Option (List Char)
  | 0, _ => ([(.cut, .cut)], none)
  | bound + 1, cs =>
    match skipSpace cs with
    | '"' :: cs =>
      match readString cs with
      | none => ([(.cut, .cut)], none)
      | some (key, rest) =>
        match skipSpace rest with
        | ':' :: rest =>
          match readValue bound rest with
          | (value, none) => ([(.leaf key, value)], none)
          | (value, some rest) =>
            match skipSpace rest with
            | ',' :: rest =>
              let (entries, rest) := readEntries bound rest
              ((.leaf key, value) :: entries, rest)
            | '}' :: rest => ([(.leaf key, value)], some rest)
            | _ => ([(.leaf key, value), (.cut, .cut)], none)
        | _ => ([(.leaf key, .cut)], none)
    | _ => ([(.cut, .cut)], none)

end

/-- How deeply values may be nested. -/
def depthLimit : Nat := 127

/-- A JSON text as a document. -/
def source (cs : List Char) : Source :=
  let (root, rest) := readValue (2 * cs.length + 2) cs
  { root := root
    positional := true
    depth := depthLimit
    anchors := []
    aliasLimit := 0
    intact := match rest with
      | some rest => (skipSpace rest).isEmpty
      | none => false }

end ApiWorkflow.Json
