import ApiWorkflow.Double.Notation
import ApiWorkflow.Json.Value

/-! # Writing JSON text

Compact text has no white space at all; spread text puts each item and each
field on a line of its own, two spaces further in than what holds it. Fields are
written in the order in which the value holds them.
-/

namespace ApiWorkflow.Json

/-- Doubles keep a plus sign in a positive exponent; there is no text for what is
    no finite number. -/
def doubleLayout : Double.Layout :=
  { plus := true, infinity := "null", negativeInfinity := "null", notANumber := "null" }

/-- A hexadecimal digit in lower case. -/
def hexChar (n : Nat) : Char :=
  if n < 10 then Char.ofNat (0x30 + n) else Char.ofNat (0x57 + n)

/-- A character inside quotes: only the quote, the backslash and the controls
    below the space are escaped. -/
def quoteChar (c : Char) : List Char :=
  if c == '"' then ['\\', '"']
  else if c == '\\' then ['\\', '\\']
  else if c == '\n' then ['\\', 'n']
  else if c == '\r' then ['\\', 'r']
  else if c == '\t' then ['\\', 't']
  else if c == '\x08' then ['\\', 'b']
  else if c == '\x0c' then ['\\', 'f']
  else if c.toNat < 0x20 then ['\\', 'u', '0', '0', hexChar (c.toNat / 16), hexChar (c.toNat % 16)]
  else [c]

/-- A string in quotes. -/
def quote (s : String) : String :=
  String.ofList ('"' :: s.toList.flatMap quoteChar ++ ['"'])

/-- A value that holds no other value. -/
def leafText : Json → String
  | .null => "null"
  | .bool b => if b then "true" else "false"
  | .int i => toString i
  | .double d => doubleLayout.write d
  | .string s => quote s
  | .array _ => "[]"
  | .object _ => "\x7b\x7d"

mutual

/-- Compact text. -/
def compact : Json → String
  | .array items => "[" ++ compactItems items ++ "]"
  | .object fields => "\x7b" ++ compactFields fields ++ "\x7d"
  | leaf => leafText leaf

def compactItems : List Json → String
  | [] => ""
  | [item] => compact item
  | item :: items => compact item ++ "," ++ compactItems items

def compactFields : List (String × Json) → String
  | [] => ""
  | [(name, value)] => quote name ++ ":" ++ compact value
  | (name, value) :: fields => quote name ++ ":" ++ compact value ++ "," ++ compactFields fields

end

/-- A new line that starts so many levels in. -/
def newLine (level : Nat) : String :=
  "\n" ++ String.ofList (List.replicate (2 * level) ' ')

mutual

/-- Spread text, inside of so many levels. -/
def spreadAt (level : Nat) : Json → String
  | .array [] => "[]"
  | .array items => "[" ++ spreadItems (level + 1) items ++ newLine level ++ "]"
  | .object [] => "\x7b\x7d"
  | .object fields => "\x7b" ++ spreadFields (level + 1) fields ++ newLine level ++ "\x7d"
  | leaf => leafText leaf

def spreadItems (level : Nat) : List Json → String
  | [] => ""
  | [item] => newLine level ++ spreadAt level item
  | item :: items => newLine level ++ spreadAt level item ++ "," ++ spreadItems level items

def spreadFields (level : Nat) : List (String × Json) → String
  | [] => ""
  | [(name, value)] => newLine level ++ quote name ++ ": " ++ spreadAt level value
  | (name, value) :: fields =>
    newLine level ++ quote name ++ ": " ++ spreadAt level value ++ "," ++ spreadFields level fields

end

/-- Spread text. -/
def spread (value : Json) : String :=
  spreadAt 0 value

end ApiWorkflow.Json
