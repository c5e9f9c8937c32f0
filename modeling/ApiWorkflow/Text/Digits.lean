/-! # Digits and the numbers they spell -/

namespace ApiWorkflow.Text

/-- The value of a digit in a base of at most sixteen. -/
def digit? (base : Nat) (c : Char) : Option Nat :=
  let n := c.toNat
  let d := if 0x30 ≤ n && n ≤ 0x39 then n - 0x30
    else if 0x41 ≤ n && n ≤ 0x46 then n - 0x37
    else if 0x61 ≤ n && n ≤ 0x66 then n - 0x57
    else 16
  if d < base then some d else none

/-- The number that digits spell behind a number already read. -/
def numeralAfter? (base : Nat) (value : Nat) : List Char → Option Nat
  | [] => some value
  | c :: cs =>
    match digit? base c with
    | some d => numeralAfter? base (value * base + d) cs
    | none => none

/-- The number that at least one digit spells. -/
def numeral? (base : Nat) : List Char → Option Nat
  | [] => none
  | cs => numeralAfter? base 0 cs

/-- A hexadecimal digit. -/
def isHex (c : Char) : Bool :=
  (digit? 16 c).isSome

end ApiWorkflow.Text
