import ApiWorkflow.Text.Digits
import ApiWorkflow.Yaml.Characters

/-! # Quoted scalars

Line breaks inside quotes are folded like those of bare scalars. In double quotes
a backslash escapes a character, gives a character by its number, or joins two
lines.
-/

namespace ApiWorkflow.Yaml.Token

/-- The character that a letter behind a backslash stands for. -/
def escape? : Char → Option Char
  | '0' => some '\x00'
  | 'a' => some '\x07'
  | 'b' => some '\x08'
  | 't' => some '\t'
  | '\t' => some '\t'
  | 'n' => some '\n'
  | 'v' => some '\x0b'
  | 'f' => some '\x0c'
  | 'r' => some '\r'
  | 'e' => some '\x1b'
  | ' ' => some ' '
  | '"' => some '"'
  | '/' => some '/'
  | '\\' => some '\\'
  | 'N' => some '\u0085'
  | '_' => some '\u00a0'
  | 'L' => some '\u2028'
  | 'P' => some '\u2029'
  | _ => none

/-- How many hexadecimal digits follow a letter behind a backslash. -/
def escapeDigits? : Char → Option Nat
  | 'x' => some 2
  | 'u' => some 4
  | 'U' => some 8
  | _ => none

/-- The character with a given number. -/
def charOf? (n : Nat) : Option Char :=
  if (0xD800 ≤ n && n ≤ 0xDFFF) || 0x10FFFF < n then none else some (Char.ofNat n)

/-- A scalar in single quotes, behind its opening quote: its text and the cursor
    behind its closing quote. The text read so far is held reversed. -/
def singleQuoted (text : List Char) (between : Between) (line column : Nat) :
    List Char → Option (List Char × Cursor)
  | [] => none
  | '\'' :: '\'' :: cs => singleQuoted ('\'' :: between.flush text) .nothing line (column + 2) cs
  | '\'' :: cs => some ((between.flush text).reverse, ⟨cs, line, column + 1⟩)
  | c :: cs =>
    if isBreak c then singleQuoted text (between.addBreak c) (line + 1) 0 cs
    else if isGap c then singleQuoted text (between.addGap c) line (column + 1) cs
    else if column == 0 && isDocumentMark (c :: cs) then none
    else singleQuoted (c :: between.flush text) .nothing line (column + 1) cs

/-- A scalar in double quotes, behind its opening quote, like `singleQuoted`. Within
    an escape by number, `digits` holds how many digits are still to come and the
    number so far. -/
def doubleQuoted (text : List Char) (between : Between) (digits : Option (Nat × Nat))
    (line column : Nat) : List Char → Option (List Char × Cursor)
  | [] => none
  | c :: cs =>
    match digits with
    | some (more, n) =>
      match Text.digit? 16 c with
      | none => none
      | some d =>
        if more ≤ 1 then
          match charOf? (n * 16 + d) with
          | none => none
          | some c => doubleQuoted (c :: text) .nothing none line (column + 1) cs
        else doubleQuoted text .nothing (some (more - 1, n * 16 + d)) line (column + 1) cs
    | none =>
      if c == '"' then some ((between.flush text).reverse, ⟨cs, line, column + 1⟩)
      else if isBreak c then doubleQuoted text (between.addBreak c) none (line + 1) 0 cs
      else if isGap c then doubleQuoted text (between.addGap c) none line (column + 1) cs
      else if column == 0 && isDocumentMark (c :: cs) then none
      else if c == '\\' then
        match cs with
        | [] => none
        | e :: cs =>
          if isBreak e then doubleQuoted (between.flush text) (.breaks none []) none (line + 1) 0 cs
          else
            match escape? e, escapeDigits? e with
            | some c, _ => doubleQuoted (c :: between.flush text) .nothing none line (column + 2) cs
            | none, some n =>
              doubleQuoted (between.flush text) .nothing (some (n, 0)) line (column + 2) cs
            | none, none => none
      else doubleQuoted (c :: between.flush text) .nothing none line (column + 1) cs

end ApiWorkflow.Yaml.Token
