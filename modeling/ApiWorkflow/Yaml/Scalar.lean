import ApiWorkflow.Double.Basic
import ApiWorkflow.Text.Digits
import ApiWorkflow.Word

/-! # The meaning of a bare scalar

The text of a bare scalar decides on its type: null, a truth value, a whole
number, a double, or else a string. A number with leading zeros is a string.
-/

namespace ApiWorkflow.Yaml

/-- What a scalar stands for. -/
inductive Scalar where
  | null
  | bool (b : Bool)
  /-- A whole number within 64 bits, signed or not. -/
  | int (i : Int)
  /-- A whole number beyond 64 bits, but within 128. -/
  | wide (i : Int)
  | double (d : Double)
  | text (s : String)
  deriving Repr, DecidableEq, Inhabited

namespace Scalar

open Text

def isNull (cs : List Char) : Bool :=
  cs == ['~'] || cs == ['n', 'u', 'l', 'l'] || cs == ['N', 'u', 'l', 'l'] || cs == ['N', 'U', 'L', 'L']

def bool? (cs : List Char) : Option Bool :=
  if cs == ['t', 'r', 'u', 'e'] || cs == ['T', 'r', 'u', 'e'] || cs == ['T', 'R', 'U', 'E'] then some true
  else if cs == ['f', 'a', 'l', 's', 'e'] || cs == ['F', 'a', 'l', 's', 'e'] ||
    cs == ['F', 'A', 'L', 'S', 'E'] then some false
  else none

/-- The text behind a plus sign, if there is one. -/
def withoutPlus : List Char → List Char
  | '+' :: cs => cs
  | cs => cs

/-- The text behind a sign, if there is one. -/
def withoutSign : List Char → List Char
  | '+' :: cs => cs
  | '-' :: cs => cs
  | cs => cs

/-- Digits that start with a zero and go on. -/
def hasLeadingZero (cs : List Char) : Bool :=
  match withoutSign cs with
  | '0' :: c :: cs => (c :: cs).all fun c => (digit? 10 c).isSome
  | _ => false

/-- A number without a sign, in base sixteen, eight, two or ten. -/
def magnitude? : List Char → Option Nat
  | '0' :: 'x' :: cs => numeral? 16 cs
  | '0' :: 'o' :: cs => numeral? 8 cs
  | '0' :: 'b' :: cs => numeral? 2 cs
  | cs => if hasLeadingZero cs then none else numeral? 10 cs

/-- A whole number without a minus sign. -/
def unsigned? (cs : List Char) : Option Nat :=
  magnitude? (withoutPlus cs)

/-- A whole number, of any size. -/
def int? : List Char → Option Int
  | '-' :: cs => (magnitude? cs).map fun n => -(n : Int)
  | cs => (unsigned? cs).map fun n => (n : Int)

/-- The digits of base ten at the start of a text, and the rest. -/
def spanDigits (cs : List Char) : List Char × List Char :=
  (cs.takeWhile fun c => (digit? 10 c).isSome, cs.dropWhile fun c => (digit? 10 c).isSome)

/-- The exponent at the end of a decimal. -/
def exponent? : List Char → Option Int
  | [] => some 0
  | c :: cs =>
    if c == 'e' || c == 'E' then
      match cs with
      | '-' :: cs => (numeral? 10 cs).map fun n => -(n : Int)
      | '+' :: cs => (numeral? 10 cs).map fun n => (n : Int)
      | cs => (numeral? 10 cs).map fun n => (n : Int)
    else none

/-- A decimal without a sign; a digit has to stand on one side of the point. -/
def decimal? (negative : Bool) (cs : List Char) : Option Double :=
  let (whole, rest) := spanDigits cs
  let (fraction, rest) := match rest with
    | '.' :: rest => spanDigits rest
    | rest => ([], rest)
  match numeral? 10 (whole ++ fraction), exponent? rest with
  | some digits, some e => some (Double.ofDecimal negative digits (e - fraction.length))
  | _, _ => none

/-- A decimal with at most a minus sign, if it is a finite number. -/
def finite? (cs : List Char) : Option Double :=
  let read := match cs with
    | '-' :: cs => decimal? true cs
    | cs => decimal? false cs
  match read with
  | some d => if d.isFinite then some d else none
  | none => none

/-- One of the three spellings of a special number. -/
def isSpecial (a b c : Char) (lower upper : List Char) (cs : List Char) : Bool :=
  cs == '.' :: lower || cs == '.' :: upper || cs == ['.', a, b, c]

/-- A double: a decimal, an infinity or not-a-number. -/
def double? (cs : List Char) : Option Double :=
  let isInfinity := isSpecial 'I' 'n' 'f' ['i', 'n', 'f'] ['I', 'N', 'F']
  let isNan := isSpecial 'N' 'a' 'N' ['n', 'a', 'n'] ['N', 'A', 'N']
  let doubleSign := match cs with
    | '+' :: '+' :: _ => true
    | '+' :: '-' :: _ => true
    | _ => false
  let negativeInfinity := match cs with
    | '-' :: rest => isInfinity rest
    | _ => false
  if doubleSign then none
  else if isInfinity (withoutPlus cs) then some (.infinite false)
  else if negativeInfinity then some (.infinite true)
  else if isNan cs then some .nan
  else finite? (withoutPlus cs)

/-- A whole number by its size; none beyond 128 bits. -/
def ofInt? (i : Int) : Option Scalar :=
  if fitsSigned 64 i || fitsUnsigned 64 i then some (.int i)
  else if fitsSigned 128 i || fitsUnsigned 128 i then some (.wide i)
  else none

/-- A whole number within 128 bits. -/
def number? (cs : List Char) : Option Scalar :=
  (int? cs).bind ofInt?

/-- The meaning of a bare scalar. -/
def ofPlain (cs : List Char) : Scalar :=
  if cs.isEmpty || isNull cs then .null
  else
    match bool? cs with
    | some b => .bool b
    | none =>
      match number? cs with
      | some n => n
      | none =>
        match (if hasLeadingZero cs then none else double? cs) with
        | some d => .double d
        | none => .text (String.ofList cs)

/-- The tags of the core types. -/
def boolTag : String := "tag:yaml.org,2002:bool"
def intTag : String := "tag:yaml.org,2002:int"
def doubleTag : String := "tag:yaml.org,2002:float"
def nullTag : String := "tag:yaml.org,2002:null"

/-- The meaning of a scalar whose tag may name a core type; none if its text is
    of another type. A scalar with any other tag is a string. -/
def ofTagged? (tag : String) (cs : List Char) : Option Scalar :=
  if tag = boolTag then (bool? cs).map .bool
  else if tag = intTag then number? cs
  else if tag = doubleTag then (double? cs).map .double
  else if tag = nullTag then (if isNull cs then some .null else none)
  else some (.text (String.ofList cs))

end Scalar

end ApiWorkflow.Yaml
