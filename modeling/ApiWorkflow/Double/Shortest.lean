import ApiWorkflow.Double.Basic

/-! # The shortest decimal of a double

The numbers that round to a given double form an interval around it. Its decimal
text has the fewest digits of any decimal in that interval; of two decimals with
so few digits the nearer one is taken, and of two equally near the even one.
-/

namespace ApiWorkflow.Double

/-- A positive decimal `digits * 10 ^ exponent`. -/
structure Decimal where
  digits : Nat
  exponent : Int
  deriving Repr, DecidableEq, Inhabited

/-- The decimals that round to one double, as an interval of fractions over one
    denominator: the lower end, the double itself, the upper end. -/
structure Interval where
  low : Nat
  value : Nat
  high : Nat
  den : Nat
  closed : Bool
  deriving Repr, DecidableEq

/-- The interval of a positive finite double. Below a power of two the gap to
    the next number is half as wide as above it. -/
def interval (mantissa : Nat) (exponent : Int) : Interval :=
  let narrow := mantissa == hiddenBit && leastExponent < exponent
  let below := if narrow then 1 else 2
  let e := exponent - 2
  let (up, den) := if 0 ≤ e then (Nat.pow 2 e.toNat, 1) else (1, Nat.pow 2 (-e).toNat)
  { low := (4 * mantissa - below) * up
    value := 4 * mantissa * up
    high := (4 * mantissa + 2) * up
    den := den
    closed := mantissa % 2 == 0 }

/-- `num / den` compared with `d * 10 ^ e`, as two natural numbers over one denominator. -/
def overPower (num den d : Nat) (e : Int) : Nat × Nat :=
  if 0 ≤ e then (num, d * Nat.pow 10 e.toNat * den)
  else (num * Nat.pow 10 (-e).toNat, d * den)

/-- Whether `d * 10 ^ e` lies in the interval. -/
def Interval.contains (i : Interval) (d : Nat) (e : Int) : Bool :=
  let (low, x) := overPower i.low i.den d e
  let (high, y) := overPower i.high i.den d e
  if i.closed then low ≤ x && y ≤ high else low < x && y < high

/-- The greatest `k ≤ start` with `10 ^ k ≤ num / den`, tried downwards a few times. -/
def floorLog10From (num den : Nat) (start : Int) : Nat → Int
  | 0 => start
  | tries + 1 =>
    let (x, power) := overPower num den 1 start
    if power ≤ x then start else floorLog10From num den (start - 1) tries

/-- The greatest `k` with `10 ^ k ≤ num / den`, for positive arguments. -/
def floorLog10 (num den : Nat) : Int :=
  floorLog10From num den (Int.fdiv ((floorLog2 num den + 1) * 30103) 100000 + 1) 4

/-- The decimal with step `10 ^ e` in the interval that is nearest to its value. -/
def Interval.nearest? (i : Interval) (e : Int) : Option Decimal :=
  let (x, step) := overPower i.value i.den 1 e
  let d := x / step
  let r := x % step
  let lower := i.contains d e && d != 0
  let upper := i.contains (d + 1) e
  match lower, upper with
  | true, true =>
    if 2 * r < step then some ⟨d, e⟩
    else if step < 2 * r then some ⟨d + 1, e⟩
    else if d % 2 == 0 then some ⟨d, e⟩ else some ⟨d + 1, e⟩
  | true, false => some ⟨d, e⟩
  | false, true => some ⟨d + 1, e⟩
  | false, false => none

/-- The first step, from `e` downwards, at which the interval holds a decimal. -/
def Interval.search (i : Interval) (e : Int) : Nat → Decimal
  | 0 => (i.nearest? e).getD ⟨0, e⟩
  | tries + 1 => (i.nearest? e).getD (i.search (e - 1) tries)

/-- Move trailing zeros of the digits into the exponent. -/
def Decimal.normalFrom (d : Nat) (e : Int) : Nat → Decimal
  | 0 => ⟨d, e⟩
  | tries + 1 => if d != 0 && d % 10 == 0 then normalFrom (d / 10) (e + 1) tries else ⟨d, e⟩

/-- The shortest decimal of a positive finite double. -/
def shortest (mantissa : Nat) (exponent : Int) : Decimal :=
  let i := interval mantissa exponent
  let found := i.search (floorLog10 i.value i.den) 17
  Decimal.normalFrom found.digits found.exponent 20

end ApiWorkflow.Double
