import ApiWorkflow.Json.Value
import ApiWorkflow.Word

/-! # Numbers in JSON text

A number without fraction and exponent is whole as long as it fits 64 bits.
Every other number is a double: its digits are collected into a 64-bit
significand, digits that no longer fit only move the decimal point, and the
significand is then multiplied or divided by a power of ten, which is itself a
double. So the result can differ in its last bit from the nearest double.
-/

namespace ApiWorkflow.Json

/-- A number as it is written, digit by digit. -/
structure NumberText where
  negative : Bool
  whole : List Nat
  fraction : Option (List Nat)
  /-- The sign of the exponent (negative or not) and its digits. -/
  exponent : Option (Bool × List Nat)
  deriving Repr, DecidableEq

def maxUnsigned : Nat := wordBound 64 - 1
def maxExponent : Nat := wordBound 31 - 1

/-- Append digits to a significand as long as it stays within the limit; the
    digits that are left over follow. -/
def collect (limit : Nat) (significand : Nat) : List Nat → Nat × List Nat
  | [] => (significand, [])
  | d :: ds =>
    if significand * 10 + d ≤ limit then collect limit (significand * 10 + d) ds
    else (significand, d :: ds)

/-- The double nearest to a power of ten. -/
def powerOfTen (e : Nat) : Double :=
  Double.ofDecimal false 1 e

/-- Scale a double by a power of ten, in steps of at most `10 ^ 308`; none if it
    grows beyond all doubles. -/
def scale (d : Double) (e : Int) : Nat → Option Double
  | 0 => none
  | steps + 1 =>
    if e.natAbs ≤ 308 then
      if 0 ≤ e then
        match d.mul (powerOfTen e.toNat) with
        | .finite s m x => some (.finite s m x)
        | _ => none
      else some (d.div (powerOfTen (-e).toNat))
    else if d.isZero then some d
    else if 0 ≤ e then none
    else scale (d.div (powerOfTen 308)) (e + 308) steps

/-- A significand and a power of ten as a double. -/
def fromParts (negative : Bool) (significand : Nat) (e : Int) : Option Double :=
  (scale (Double.ofInt significand) e 8).map fun d => if negative then d.neg else d

/-- Confine an exponent to 32 bits. -/
def saturate (e : Int) : Int :=
  max (-(wordBound 31 : Int)) (min e maxExponent)

/-- Apply a written exponent to a significand. -/
def withExponent (negative : Bool) (significand : Nat) (e : Int) :
    Option (Bool × List Nat) → Option Double
  | none => fromParts negative significand e
  | some (down, digits) =>
    match collect maxExponent 0 digits with
    | (x, []) => fromParts negative significand (saturate (if down then e - x else e + x))
    | (_, _ :: _) => if significand = 0 || down then some (Double.zero negative) else none

/-- The value of a number; none if it is beyond all doubles. -/
def NumberText.value? (n : NumberText) : Option Json :=
  let (significand, dropped) := collect maxUnsigned 0 n.whole
  match n.fraction, n.exponent, dropped with
  | none, none, [] =>
    if n.negative then
      if significand = 0 || wordBound 63 < significand then some (.double (Double.ofInt significand).neg)
      else some (.int (-significand))
    else some (.int significand)
  | none, exponent, _ =>
    (withExponent n.negative significand dropped.length exponent).map .double
  | some fraction, exponent, _ =>
    let (full, rest) := collect maxUnsigned significand fraction
    let used : Nat := fraction.length - rest.length
    (withExponent n.negative full ((dropped.length : Int) - used) exponent).map .double

end ApiWorkflow.Json
