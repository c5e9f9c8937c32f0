import ApiWorkflow.Yaml.Characters

/-! # Block scalars

A block scalar keeps its line breaks or folds them, and has one of three rules
for the line breaks at its end. Its indentation is given in its header or taken
from its first lines.
-/

namespace ApiWorkflow.Yaml.Token

/-- What happens to the line breaks at the end of a block. -/
inductive Chomping where
  | strip
  | clip
  | keep
  deriving Repr, DecidableEq, Inhabited

/-- The signs behind the bar or the angle that starts a block. -/
structure BlockHeader where
  chomping : Chomping
  /-- The indentation relative to the enclosing collection. -/
  increment : Option Nat
  deriving Repr, DecidableEq, Inhabited

def chomping? : Char → Option Chomping
  | '+' => some .keep
  | '-' => some .strip
  | _ => none

/-- A digit from one to nine; a zero is no indentation. -/
def increment? (c : Char) : Option (Option Nat) :=
  if c == '0' then some none
  else if c.isDigit then some (some (c.toNat - 0x30))
  else none

/-- The signs of a header in either order, and the text behind them. -/
def blockHeader (cs : List Char) : Option (BlockHeader × List Char) :=
  match cs with
  | [] => some (⟨.clip, none⟩, [])
  | c :: rest =>
    match chomping? c with
    | some chomping =>
      match rest with
      | [] => some (⟨chomping, none⟩, [])
      | d :: behind =>
        match increment? d with
        | none => some (⟨chomping, none⟩, rest)
        | some none => none
        | some (some n) => some (⟨chomping, some n⟩, behind)
    | none =>
      match increment? c with
      | none => some (⟨.clip, none⟩, cs)
      | some none => none
      | some (some n) =>
        match rest with
        | [] => some (⟨.clip, some n⟩, [])
        | d :: behind =>
          match chomping? d with
          | some chomping => some (⟨chomping, some n⟩, behind)
          | none => some (⟨.clip, some n⟩, rest)

/-- The text behind the rest of a header line, which holds only blanks and a
    comment. -/
def afterHeader (cs : List Char) : Option (List Char) :=
  let cs := cs.dropWhile isGap
  let cs := match cs with
    | '#' :: cs => cs.dropWhile fun c => !isBreak c
    | cs => cs
  match cs with
  | [] => some []
  | c :: cs => if isBreak c then some cs else none

/-- A block scalar as far as it has been read. -/
structure BlockText where
  /-- The text, reversed. -/
  text : List Char
  /-- The break at the end of the last line with content. -/
  lineBreak : Option Char
  /-- The breaks behind it, the last one first. -/
  moreBreaks : List Char
  /-- Whether the last line with content started with a blank. -/
  blankStart : Bool
  /-- The indentation, once it is known, and the widest one seen before. -/
  indent : Option Nat
  widest : Nat
  deriving Repr, DecidableEq, Inhabited

/-- A line with content starts with character `c`: join it to the lines before. -/
def BlockText.startLine (literal : Bool) (c : Char) (b : BlockText) : BlockText :=
  let blank := isGap c
  let text :=
    if !literal && b.lineBreak == some '\n' && !b.blankStart && !blank then
      if b.moreBreaks.isEmpty then ' ' :: b.text else b.text
    else
      match b.lineBreak with
      | some c => c :: b.text
      | none => b.text
  { b with text := b.moreBreaks ++ text, lineBreak := none, moreBreaks := [], blankStart := blank }

/-- The whole text of a block. -/
def BlockText.finish (chomping : Chomping) (b : BlockText) : List Char :=
  let ending := b.lineBreak.toList
  (match chomping with
    | .strip => b.text
    | .clip => ending ++ b.text
    | .keep => b.moreBreaks ++ ending ++ b.text).reverse

/-- The lines of a block. Inside of a line everything up to its break is content;
    between lines, indentation and empty lines are passed over. `least` is the
    least indentation. -/
def blockLines (literal : Bool) (chomping : Chomping) (least : Nat) (inLine : Bool) (b : BlockText)
    (line column : Nat) : List Char → Option (List Char × Cursor)
  | [] => some (b.finish chomping, ⟨[], line, column⟩)
  | c :: cs =>
    if inLine then
      if isBreak c then
        blockLines literal chomping least false { b with lineBreak := some c } (line + 1) 0 cs
      else
        blockLines literal chomping least true { b with text := c :: b.text } line (column + 1) cs
    else
      let indenting := match b.indent with
        | none => true
        | some n => decide (column < n)
      let widest := max b.widest column
      if indenting && c == ' ' then
        blockLines literal chomping least false b line (column + 1) cs
      else if indenting && c == '\t' then none
      else if isBreak c then
        blockLines literal chomping least false
          { b with moreBreaks := c :: b.moreBreaks, widest := widest } (line + 1) 0 cs
      else
        let indent := b.indent.getD (max widest least)
        if column == indent then
          let b := { b with indent := some indent, widest := 0 }.startLine literal c
          blockLines literal chomping least true { b with text := c :: b.text } line (column + 1) cs
        else some (b.finish chomping, ⟨c :: cs, line, column⟩)

/-- A block scalar behind the sign that starts it. `indent` is the indentation of
    the enclosing collection, `-1` if there is none. -/
def block (literal : Bool) (indent : Int) (line : Nat) (cs : List Char) :
    Option (List Char × Cursor) := do
  let (header, cs) ← blockHeader cs
  let cs ← afterHeader cs
  let given := header.increment.map fun n => ((max indent 0) + n).toNat
  let least := (max (indent + 1) 1).toNat
  blockLines literal header.chomping least false ⟨[], none, [], false, given, 0⟩ (line + 1) 0 cs

end ApiWorkflow.Yaml.Token
