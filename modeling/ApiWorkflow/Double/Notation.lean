import ApiWorkflow.Double.Shortest

/-! # Writing a double

The digits are those of the shortest decimal. A layout decides how they are
written: positionally while the decimal point stands near the digits, otherwise
with an exponent.
-/

namespace ApiWorkflow.Double

/-- The choices left open by the digits. -/
structure Layout where
  /-- Whether a positive exponent carries a plus sign. -/
  plus : Bool
  infinity : String
  negativeInfinity : String
  notANumber : String
  deriving Repr, DecidableEq

/-- Digits with the decimal point `point` places behind their start: positional
    from five zeros after the point up to sixteen digits before it, with `.0`
    for whole numbers. -/
def Layout.writeDigits (layout : Layout) (digits : List Char) (point : Int) : List Char :=
  let size : Int := digits.length
  if size ≤ point ∧ point ≤ 16 then
    digits ++ List.replicate (point - size).toNat '0' ++ ['.', '0']
  else if 0 < point ∧ point ≤ 16 then
    digits.take point.toNat ++ '.' :: digits.drop point.toNat
  else if -5 < point ∧ point ≤ 0 then
    ['0', '.'] ++ List.replicate (-point).toNat '0' ++ digits
  else
    let mantissa := match digits with
      | [] => []
      | [d] => [d]
      | d :: ds => d :: '.' :: ds
    let exponent := point - 1
    let sign := if exponent < 0 then ['-'] else if layout.plus then ['+'] else []
    mantissa ++ 'e' :: sign ++ Nat.toDigits 10 exponent.natAbs

/-- The text of a double. -/
def Layout.write (layout : Layout) : Double → String
  | .finite negative m e =>
    let body :=
      if m == 0 then ['0', '.', '0']
      else
        let d := shortest m e
        let digits := Nat.toDigits 10 d.digits
        layout.writeDigits digits (digits.length + d.exponent)
    String.ofList (if negative then '-' :: body else body)
  | .infinite negative => if negative then layout.negativeInfinity else layout.infinity
  | .nan => layout.notANumber

end ApiWorkflow.Double
