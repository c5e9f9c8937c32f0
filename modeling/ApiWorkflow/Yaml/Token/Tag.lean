import ApiWorkflow.Text.Digits
import ApiWorkflow.Text.Utf8
import ApiWorkflow.Yaml.Characters

/-! # Tags, anchors and directives -/

namespace ApiWorkflow.Yaml.Token

/-- The name behind the sign of an anchor or an alias, and the text behind it. -/
def anchorName (cs : List Char) : Option (List Char × List Char) :=
  let name := cs.takeWhile isNameChar
  let rest := cs.dropWhile isNameChar
  let ended := endsWord rest || match rest with
    | c :: _ => ['?', ':', ',', ']', '}', '%', '@', '\x60'].contains c
    | [] => true
  if name.isEmpty || !ended then none else some (name, rest)

/-- A character of a tag's uri; brackets and commas only in a verbatim tag. -/
def isUriChar (verbatim : Bool) (c : Char) : Bool :=
  isNameChar c ||
    [';', '/', '?', ':', '@', '&', '=', '+', '$', '.', '%', '!', '~', '*', '\'', '(', ')'].contains c ||
    (verbatim && (c == ',' || c == '[' || c == ']'))

/-- How many bytes a character takes whose first byte this is. -/
def byteWidth? (n : Nat) : Option Nat :=
  if n < 0x80 then some 1
  else if 0xC0 ≤ n && n < 0xE0 then some 2
  else if 0xE0 ≤ n && n < 0xF0 then some 3
  else if 0xF0 ≤ n && n < 0xF8 then some 4
  else none

/-- The bytes of a uri whose characters may be written as escaped bytes. `owed`
    tells how many further bytes of a character have to follow as escapes. -/
def uriBytes (owed : Nat) : List Char → Option (List UInt8)
  | [] => if owed == 0 then some [] else none
  | '%' :: a :: b :: cs =>
    match Text.digit? 16 a, Text.digit? 16 b with
    | some a, some b =>
      let n := a * 16 + b
      let more? := if owed == 0 then (byteWidth? n).map (· - 1)
        else if 0x80 ≤ n && n < 0xC0 then some (owed - 1) else none
      match more? with
      | some more => (uriBytes more cs).map (UInt8.ofNat n :: ·)
      | none => none
    | _, _ => none
  | c :: cs =>
    if c == '%' || owed != 0 then none
    else (uriBytes 0 cs).map (String.utf8EncodeChar c ++ ·)

/-- The text of a uri. -/
def uriText (cs : List Char) : Option (List Char) :=
  (uriBytes 0 cs).map Text.Utf8.decodeLenient

/-- A handle: an exclamation mark, and perhaps a name and another one. -/
def tagHandle : List Char → Option (List Char × List Char)
  | '!' :: cs =>
    let name := cs.takeWhile isNameChar
    match cs.dropWhile isNameChar with
    | '!' :: rest => some ('!' :: name ++ ['!'], rest)
    | rest => some ('!' :: name, rest)
  | _ => none

/-- A whole handle stands between two exclamation marks. -/
def isWholeHandle (handle : List Char) : Bool :=
  2 ≤ handle.length && handle.getLast? == some '!'

/-- A tag that starts at an exclamation mark: its handle, its suffix, and the text
    behind it. A tag without handle has the whole tag as its suffix. -/
def tagParts (inFlow : Bool) (cs : List Char) : Option (List Char × List Char × List Char) := do
  let (handle, suffix, rest) ← match cs with
    | '!' :: '<' :: cs =>
      let raw := cs.takeWhile (isUriChar true)
      match cs.dropWhile (isUriChar true) with
      | '>' :: rest =>
        if raw.isEmpty then none
        else (uriText raw).map fun suffix => ([], suffix, rest)
      | _ => none
    | cs =>
      match tagHandle cs with
      | none => none
      | some (handle, behind) =>
        let raw := behind.takeWhile (isUriChar false)
        let rest := behind.dropWhile (isUriChar false)
        if isWholeHandle handle then
          if raw.isEmpty then none
          else (uriText raw).map fun suffix => (handle, suffix, rest)
        else
          (uriText raw).map fun suffix =>
            match handle.drop 1 ++ suffix with
            | [] => ([], ['!'], rest)
            | suffix => (['!'], suffix, rest)
  let ended := endsWord rest || (inFlow && rest.head? == some ',')
  if ended then some (handle, suffix, rest) else none

/-- The rest of a directive's line holds only blanks and a comment. -/
def endDirective (cs : List Char) : Option (List Char) :=
  let cs := cs.dropWhile isGap
  let cs := match cs with
    | '#' :: cs => cs.dropWhile fun c => !isBreak c
    | cs => cs
  match cs with
  | [] => some []
  | c :: cs => if isBreak c then some cs else none

/-- A number of at most nine digits. -/
def versionNumber (cs : List Char) : Option (Nat × List Char) :=
  let digits := cs.takeWhile Char.isDigit
  if 9 < digits.length then none
  else (Text.numeral? 10 digits).map fun n => (n, cs.dropWhile Char.isDigit)

/-- The numbers of a version directive, behind its name. -/
def versionParts (cs : List Char) : Option (Nat × Nat × List Char) := do
  let (major, rest) ← versionNumber (cs.dropWhile isGap)
  match rest with
  | '.' :: rest =>
    let (minor, rest) ← versionNumber rest
    pure (major, minor, rest)
  | _ => none

/-- The handle and the text it stands for of a tag directive, behind its name. -/
def tagDirectiveParts (cs : List Char) : Option (List Char × List Char × List Char) := do
  let (handle, rest) ← tagHandle (cs.dropWhile isGap)
  if handle != ['!'] && !isWholeHandle handle then none
  else
    match rest with
    | c :: _ =>
      if isGap c then
        let rest := rest.dropWhile isGap
        let raw := rest.takeWhile (isUriChar true)
        let behind := rest.dropWhile (isUriChar true)
        if raw.isEmpty || !endsWord behind then none
        else
          let leading ← uriText raw
          pure (handle, leading, behind)
      else none
    | [] => none

/-- The name of a directive, and the text behind it. -/
def directiveName (cs : List Char) : Option (List Char × List Char) :=
  let name := cs.takeWhile isNameChar
  let rest := cs.dropWhile isNameChar
  if name.isEmpty || !endsWord rest then none else some (name, rest)

end ApiWorkflow.Yaml.Token
