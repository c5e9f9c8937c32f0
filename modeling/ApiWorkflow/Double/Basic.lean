/-! # Binary floating-point numbers of double precision

A finite number is a sign, a whole mantissa and a power of two, so that every
operation is exact arithmetic on `Nat` followed by one rounding. `Double.round`
is that rounding: to the nearest number, a half to the even mantissa.
-/

namespace ApiWorkflow

/-- A double. `finite s m e` is `m * 2 ^ e`, negated if `s`; the numbers built by
    this library have `m < 2 ^ 53`, `-1074 ≤ e` and, above the least exponent,
    `2 ^ 52 ≤ m`. -/
inductive Double where
  | finite (negative : Bool) (mantissa : Nat) (exponent : Int)
  | infinite (negative : Bool)
  | nan
  deriving Repr, DecidableEq, Inhabited

namespace Double

/-- The least power of two, and the greatest. -/
def leastExponent : Int := -1074
def greatestExponent : Int := 971

/-- The least mantissa above the least exponent. -/
def hiddenBit : Nat := Nat.pow 2 52

/-- Zero, with a sign. -/
def zero (negative : Bool) : Double :=
  .finite negative 0 leastExponent

def isZero : Double → Bool
  | .finite _ m _ => m == 0
  | _ => false

def isFinite : Double → Bool
  | .finite .. => true
  | _ => false

/-- The number with its sign turned. -/
def neg : Double → Double
  | .finite s m e => .finite (!s) m e
  | .infinite s => .infinite (!s)
  | .nan => .nan

/-- `num / den * 2 ^ e` as a fraction of natural numbers. -/
def asFraction (num den : Nat) (e : Int) : Nat × Nat :=
  if 0 ≤ e then (num * Nat.pow 2 e.toNat, den) else (num, den * Nat.pow 2 (-e).toNat)

/-- The greatest `k` with `2 ^ k ≤ num / den`, for positive arguments. -/
def floorLog2 (num den : Nat) : Int :=
  let k : Int := (num.log2 : Int) - (den.log2 : Int)
  let (lower, upper) :=
    if 0 ≤ k then (den * Nat.pow 2 k.toNat, num) else (den, num * Nat.pow 2 (-k).toNat)
  if lower ≤ upper then k else k - 1

/-- The quotient to the nearest whole number, a half to the even one. -/
def divideToEven (num den : Nat) : Nat :=
  let q := num / den
  let r := num % den
  if 2 * r < den then q
  else if den < 2 * r then q + 1
  else if q % 2 = 0 then q else q + 1

/-- The double nearest to `num / den * 2 ^ e`, where `den` is positive. -/
def round (negative : Bool) (num den : Nat) (e : Int) : Double :=
  if num = 0 then zero negative
  else
    let (num, den) := asFraction num den e
    let exponent := max (floorLog2 num den - 52) leastExponent
    let (num, den) := asFraction num den (-exponent)
    let mantissa := divideToEven num den
    let (mantissa, exponent) :=
      if mantissa = 2 * hiddenBit then (hiddenBit, exponent + 1) else (mantissa, exponent)
    if greatestExponent < exponent then .infinite negative else .finite negative mantissa exponent

/-- The double nearest to a whole number. -/
def ofInt (i : Int) : Double :=
  round (i < 0) i.natAbs 1 0

/-- The product of two finite numbers, rounded once. -/
def mul : Double → Double → Double
  | .finite s m e, .finite s' m' e' => round (s != s') (m * m') 1 (e + e')
  | _, _ => .nan

/-- The quotient of two finite numbers, rounded once; the divisor is not zero. -/
def div : Double → Double → Double
  | .finite s m e, .finite s' m' e' => round (s != s') m m' (e - e')
  | _, _ => .nan

/-- The double nearest to `digits * 10 ^ e`. Powers far outside the range are
    settled by the number of digits alone. -/
def ofDecimal (negative : Bool) (digits : Nat) (e : Int) : Double :=
  if digits = 0 then zero negative
  else
    let size : Int := ((Nat.toDigits 10 digits).length : Int) + e
    if 310 < size then .infinite negative
    else if size < -330 then zero negative
    else if 0 ≤ e then round negative (digits * Nat.pow 10 e.toNat) 1 0
    else round negative digits (Nat.pow 10 (-e).toNat) 0

/-- Equality of numbers: the two zeros are equal, and not-a-number equals itself. -/
def sameNumber : Double → Double → Bool
  | .finite s m e, .finite s' m' e' => (m == 0 && m' == 0) || (s == s' && m == m' && e == e')
  | .infinite s, .infinite s' => s == s'
  | .nan, .nan => true
  | _, _ => false

end Double

end ApiWorkflow
