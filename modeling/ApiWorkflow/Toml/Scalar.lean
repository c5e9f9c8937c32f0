import ApiWorkflow.Text.Digits
import ApiWorkflow.Toml.Table
import ApiWorkflow.Word

/-! # TOML strings, numbers and dates

Each reader takes the text from its first character and gives what it reads with
the rest of the text, or nothing if the text makes no sense.
-/

namespace ApiWorkflow.Toml

open Text (digit? numeral?)

/-- A reader of values of type `α`. -/
abbrev Reader (α : Type) := List Char → Option (α × List Char)

def isSpace (c : Char) : Bool :=
  c == ' ' || c == '\t'

/-- A character of a comment or a string: no control character but the tabulator. -/
def isTextChar (c : Char) : Bool :=
  c == '\t' || (0x20 ≤ c.toNat && c.toNat ≠ 0x7F)

def dropSpace (cs : List Char) : List Char :=
  cs.dropWhile isSpace

/-- The text behind a line break. -/
def dropBreak? : List Char → Option (List Char)
  | '\n' :: cs => some cs
  | '\r' :: '\n' :: cs => some cs
  | _ => none

/-- Drop blanks and line breaks. -/
def dropGaps : List Char → List Char
  | '\r' :: '\n' :: cs => dropGaps cs
  | c :: cs => if isSpace c || c == '\n' then dropGaps cs else c :: cs
  | [] => []

/-! ## Strings -/

/-- The character whose number is spelled by some digits. -/
def codedChar (digits : Nat) : Reader Char := fun cs => do
  let code := cs.take digits
  if code.length < digits then none
  else
    let n ← numeral? 16 code
    if n.isValidChar then some (Char.ofNat n, cs.drop digits) else none

/-- The character that is written behind a backslash. -/
def escaped : Reader Char
  | 'b' :: cs => some ('\x08', cs)
  | 't' :: cs => some ('\t', cs)
  | 'n' :: cs => some ('\n', cs)
  | 'f' :: cs => some ('\x0c', cs)
  | 'r' :: cs => some ('\r', cs)
  | '"' :: cs => some ('"', cs)
  | '\\' :: cs => some ('\\', cs)
  | 'u' :: cs => codedChar 4 cs
  | 'U' :: cs => codedChar 8 cs
  | _ => none

/-- A character in front of what is read. -/
def push (c : Char) (read : Option (List Char × List Char)) : Option (List Char × List Char) :=
  read.map fun (text, rest) => (c :: text, rest)

/-- A string in double quotes, behind the first one. -/
def basic : Nat → Reader (List Char)
  | 0, _ => none
  | fuel + 1, cs =>
    match cs with
    | '"' :: cs => some ([], cs)
    | '\\' :: cs => (escaped cs).bind fun (c, cs) => push c (basic fuel cs)
    | c :: cs => if isTextChar c then push c (basic fuel cs) else none
    | [] => none

/-- A string in single quotes, behind the first one. -/
def literal : Reader (List Char)
  | '\'' :: cs => some ([], cs)
  | c :: cs => if isTextChar c then push c (literal cs) else none
  | [] => none

/-- The end of a string over several lines: up to two quotes may stand in front of
    the three that end it. -/
def longEnd (quote : Char) (cs : List Char) : Option (List Char × List Char) :=
  let run := (cs.takeWhile (· == quote)).length
  if run < 3 then none
  else
    let kept := min (run - 3) 2
    some (List.replicate kept quote, cs.drop (kept + 3))

/-- A string over several lines, behind its three quotes. Only in double quotes
    does a backslash mean anything. -/
def long (quote : Char) : Nat → Reader (List Char)
  | 0, _ => none
  | fuel + 1, cs =>
    match longEnd quote cs with
    | some (text, cs) => some (text, cs)
    | none =>
      match dropBreak? cs with
      | some cs => push '\n' (long quote fuel cs)
      | none =>
        match cs with
        | [] => none
        | c :: cs =>
          if c == '\\' && quote == '"' then
            match dropBreak? (dropSpace cs) with
            | some cs => long quote fuel (dropGaps cs)
            | none => (escaped cs).bind fun (c, cs) => push c (long quote fuel cs)
          else if isTextChar c then push c (long quote fuel cs)
          else none

/-- A string over several lines; a line break right at its start does not count. -/
def longText (quote : Char) (cs : List Char) : Option (List Char × List Char) :=
  long quote (cs.length + 1) ((dropBreak? cs).getD cs)

/-- A string in one line. -/
def shortText : Reader (List Char)
  | '"' :: cs => basic (cs.length + 1) cs
  | '\'' :: cs => literal cs
  | _ => none

/-- A string. -/
def anyText : Reader (List Char)
  | '"' :: '"' :: '"' :: cs => longText '"' cs
  | '\'' :: '\'' :: '\'' :: cs => longText '\'' cs
  | cs => shortText cs

/-! ## Numbers -/

/-- More digits, between which single underscores may stand. -/
def moreDigits (isDigit : Char → Bool) : Reader (List Char)
  | '_' :: c :: cs => if isDigit c then push c (moreDigits isDigit cs) else none
  | c :: cs =>
    if isDigit c then push c (moreDigits isDigit cs)
    else if c == '_' then none else some ([], c :: cs)
  | [] => some ([], [])

/-- One digit or more. -/
def digits (isDigit : Char → Bool) : Reader (List Char)
  | c :: cs => if isDigit c then push c (moreDigits isDigit cs) else none
  | [] => none

/-- The digits of a whole number, without a leading zero. -/
def wholeDigits : Reader (List Char)
  | '0' :: cs => some (['0'], cs)
  | cs => digits Char.isDigit cs

/-- The number that decimal digits spell. -/
def decimalValue (cs : List Char) : Nat :=
  (numeral? 10 cs).getD 0

/-- A sign, and whether it is a minus. -/
def sign : List Char → Bool × List Char
  | '-' :: cs => (true, cs)
  | '+' :: cs => (false, cs)
  | cs => (false, cs)

/-- An exponent, if there is one. -/
def exponent : Reader Int
  | c :: cs =>
    if c == 'e' || c == 'E' then
      let (negative, cs) := sign cs
      (digits Char.isDigit cs).map fun (ds, rest) =>
        (if negative then -(decimalValue ds : Int) else decimalValue ds, rest)
    else some (0, c :: cs)
  | [] => some (0, [])

/-- The digits behind a point, if there is one. -/
def fraction : Reader (List Char)
  | '.' :: cs => digits Char.isDigit cs
  | cs => some ([], cs)

/-- A whole number within 64 bits. -/
def ofInt? (i : Int) : Option Value :=
  if fitsSigned 64 i then some (.int i) else none

/-- A double; one that is too large is refused. -/
def ofDouble? (d : Double) : Option Value :=
  match d with
  | .infinite false => none
  | d => some (.double d)

/-- A number behind its sign. -/
def unsignedNumber (negative : Bool) : Reader Value
  | 'i' :: 'n' :: 'f' :: cs => some (.double (.infinite negative), cs)
  | 'n' :: 'a' :: 'n' :: cs => some (.double .nan, cs)
  | cs => do
    let (whole, rest) ← wholeDigits cs
    let (decimals, rest') ← fraction rest
    let (e, rest') ← exponent rest'
    if rest'.length == rest.length then
      let n : Int := decimalValue whole
      (ofInt? (if negative then -n else n)).map (·, rest)
    else
      let value := Double.ofDecimal negative (decimalValue (whole ++ decimals)) (e - decimals.length)
      (ofDouble? value).map (·, rest')

/-- A number in another base, behind its mark. -/
def inBase (base : Nat) (cs : List Char) : Option (Value × List Char) := do
  let (ds, rest) ← digits (fun c => (digit? base c).isSome) cs
  let n ← numeral? base ds
  (ofInt? n).map (·, rest)

/-- A number. -/
def number : Reader Value
  | '0' :: 'x' :: cs => inBase 16 cs
  | '0' :: 'o' :: cs => inBase 8 cs
  | '0' :: 'b' :: cs => inBase 2 cs
  | cs => let (negative, cs) := sign cs; unsignedNumber negative cs

/-! ## Dates and times -/

/-- A number of some decimal digits. -/
def fixedNumber (count : Nat) : Reader Nat := fun cs =>
  let ds := cs.take count
  if ds.length == count && ds.all Char.isDigit then some (decimalValue ds, cs.drop count) else none

/-- A number of two digits within bounds. -/
def twoDigits (least greatest : Nat) : Reader Nat := fun cs => do
  let (n, rest) ← fixedNumber 2 cs
  if least ≤ n && n ≤ greatest then some (n, rest) else none

/-- The text behind a character. -/
def expect (c : Char) : List Char → Option (List Char)
  | d :: cs => if d = c then some cs else none
  | [] => none

def isLeapYear (year : Nat) : Bool :=
  year % 4 == 0 && (year % 100 != 0 || year % 400 == 0)

def daysOf (year month : Nat) : Nat :=
  if month == 2 then (if isLeapYear year then 29 else 28)
  else if [4, 6, 9, 11].contains month then 30 else 31

/-- Drop the fraction of a second, if there is one. -/
def dropFraction : List Char → List Char
  | '.' :: c :: cs => if c.isDigit then cs.dropWhile Char.isDigit else '.' :: c :: cs
  | cs => cs

/-- The text behind a time. -/
def time (cs : List Char) : Option (List Char) := do
  let (_, cs) ← twoDigits 0 23 cs
  let cs ← expect ':' cs
  let (_, cs) ← twoDigits 0 59 cs
  let cs ← expect ':' cs
  let (_, cs) ← twoDigits 0 60 cs
  pure (dropFraction cs)

/-- The text behind the distance from universal time, if it is given. -/
def offset : List Char → Option (List Char)
  | [] => some []
  | c :: cs =>
    if c == 'Z' || c == 'z' then some cs
    else if c == '+' || c == '-' then do
      let (_, cs) ← twoDigits 0 23 cs
      let cs ← expect ':' cs
      let (_, cs) ← twoDigits 0 59 cs
      pure cs
    else some (c :: cs)

/-- Whether a time starts here. -/
def startsTime (cs : List Char) : Bool :=
  match cs with
  | a :: b :: ':' :: _ => a.isDigit && b.isDigit
  | _ => false

/-- Whether a date starts here. -/
def startsDate (cs : List Char) : Bool :=
  match cs with
  | a :: b :: c :: d :: '-' :: _ => a.isDigit && b.isDigit && c.isDigit && d.isDigit
  | _ => false

/-- The text behind a date, to which a time may belong. -/
def date (cs : List Char) : Option (List Char) := do
  let (year, cs) ← fixedNumber 4 cs
  let cs ← expect '-' cs
  let (month, cs) ← twoDigits 1 12 cs
  let cs ← expect '-' cs
  let (_, cs) ← twoDigits 1 (daysOf year month) cs
  match cs with
  | c :: rest =>
    if (c == 'T' || c == 't' || c == ' ') && startsTime rest then (time rest).bind offset
    else some cs
  | [] => some []

/-- A number, a date or a time. -/
def numberOrMoment (cs : List Char) : Option (Value × List Char) :=
  if startsDate cs then (date cs).map (Value.moment, ·)
  else if startsTime cs then (time cs).map (Value.moment, ·)
  else number cs

end ApiWorkflow.Toml
