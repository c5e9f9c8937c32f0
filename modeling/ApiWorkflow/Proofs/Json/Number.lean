import ApiWorkflow.Proofs.Json.Leaf
import Mathlib.Data.Nat.Log

/-! # Numbers that are read

A number that is read from text is a whole number within 64 bits or a finite double:
dividing by powers of ten does not grow, and a product is only kept if it is finite.
-/

namespace ApiWorkflow

namespace Double

/-- A finite number below `2 ^ (size + 1)`. -/
def SizeLe (size : Int) : Double → Prop
  | .finite _ mantissa exponent => mantissa = 0 ∨ (mantissa.log2 : Int) + exponent ≤ size
  | _ => False

theorem SizeLe.isFinite {size : Int} {x : Double} (bounded : x.SizeLe size) : x.isFinite = true := by
  cases x with
  | finite => rfl
  | infinite => cases bounded
  | nan => cases bounded

theorem SizeLe.mono {size other : Int} {x : Double} (bounded : x.SizeLe size) (le : size ≤ other) :
    x.SizeLe other := by
  cases x with
  | finite s m e => exact bounded.imp_right fun small => small.trans le
  | infinite => cases bounded
  | nan => cases bounded

theorem isFinite_neg (x : Double) : x.neg.isFinite = x.isFinite := by
  cases x <;> rfl

theorem log2_mul_pow {n : Nat} (positive : n ≠ 0) (k : Nat) :
    (n * Nat.pow 2 k).log2 = n.log2 + k := by
  induction k with
  | zero => simp
  | succ k ih =>
    have nonzero : n * Nat.pow 2 k ≠ 0 := Nat.mul_ne_zero positive (Nat.pow_pos (by decide)).ne'
    have doubled : n * Nat.pow 2 (k + 1) = 2 * (n * Nat.pow 2 k) := by
      rw [Nat.pow_eq, Nat.pow_succ, Nat.mul_comm (2 ^ k), Nat.mul_left_comm]
      rfl
    rw [doubled, Nat.log2_two_mul nonzero, ih]
    rfl

theorem log2_asFraction {num den : Nat} (hn : num ≠ 0) (hd : den ≠ 0) (e : Int) :
    ∃ top bottom, asFraction num den e = (top, bottom) ∧ top ≠ 0 ∧ bottom ≠ 0 ∧
      (top.log2 : Int) - bottom.log2 = num.log2 + e - den.log2 := by
  rw [asFraction]
  split
  · refine ⟨_, _, rfl, Nat.mul_ne_zero hn (Nat.pow_pos (by decide)).ne', hd, ?_⟩
    rw [log2_mul_pow hn]
    omega
  · refine ⟨_, _, rfl, hn, Nat.mul_ne_zero hd (Nat.pow_pos (by decide)).ne', ?_⟩
    rw [log2_mul_pow hd]
    omega

theorem floorLog2_le (num den : Nat) : floorLog2 num den ≤ (num.log2 : Int) - den.log2 := by
  simp only [floorLog2]
  split <;> omega

theorem divideToEven_le (num den : Nat) : divideToEven num den ≤ num / den + 1 := by
  simp only [divideToEven]
  repeat' split
  all_goals omega

theorem log2_divideToEven_le (num : Nat) {den : Nat} (hd : den ≠ 0) :
    (divideToEven num den).log2 ≤ num.log2 + 1 - den.log2 := by
  by_cases zero : divideToEven num den = 0
  · simp [zero]
  generalize same : num.log2 + 1 - den.log2 = k
  have small : num / den < 2 ^ k := by
    rw [Nat.div_lt_iff_lt_mul (Nat.pos_of_ne_zero hd)]
    calc num < 2 ^ (num.log2 + 1) := Nat.lt_log2_self
      _ ≤ 2 ^ (k + den.log2) := Nat.pow_le_pow_right (by decide) (by omega)
      _ = 2 ^ k * 2 ^ den.log2 := Nat.pow_add ..
      _ ≤ 2 ^ k * den := Nat.mul_le_mul_left _ (Nat.log2_self_le hd)
  have le := divideToEven_le num den
  have grows : 2 ^ k < 2 ^ (k + 1) := Nat.pow_lt_pow_right (by decide) (by omega)
  exact Nat.lt_succ_iff.mp ((Nat.log2_lt zero).mpr (by omega))

/-- Rounding does not leave the doubles as long as the number is not too large. -/
theorem sizeLe_round {negative : Bool} {num den : Nat} {e size : Int} (hd : den ≠ 0)
    (bounded : num = 0 ∨ (num.log2 : Int) + e - den.log2 ≤ size) (above : -1074 ≤ size)
    (below : size ≤ 1022) : (round negative num den e).SizeLe (size + 1) := by
  rw [round]
  split
  · exact .inl rfl
  · rename_i hn
    have small := bounded.resolve_left hn
    obtain ⟨top, bottom, fraction, ht, hb, logs⟩ := log2_asFraction hn hd e
    rw [fraction]
    dsimp only
    have log := floorLog2_le top bottom
    generalize same : max (floorLog2 top bottom - 52) leastExponent = exponent
    have exponentLe : exponent ≤ max (size - 52) (-1074) := by
      rw [leastExponent] at same
      omega
    obtain ⟨scaled, unit, fraction, -, hu, logsScaled⟩ := log2_asFraction ht hb (-exponent)
    rw [fraction]
    dsimp only
    have logMantissa := log2_divideToEven_le scaled hu
    generalize divideToEven scaled unit = mantissa at logMantissa
    split
    · rename_i carried
      have log2Carried : mantissa.log2 = 53 := by
        rw [carried]
        decide
      have log2Hidden : hiddenBit.log2 = 52 := by decide
      dsimp only
      rw [if_neg (by rw [greatestExponent]; omega)]
      exact .inr (by omega)
    · dsimp only
      rw [if_neg (by rw [greatestExponent]; omega)]
      exact .inr (by omega)

theorem sizeLe_ofInt {i : Int} (small : i.natAbs < wordBound 64) : (ofInt i).SizeLe 65 := by
  have bounded : i.natAbs = 0 ∨ (i.natAbs.log2 : Int) + 0 - (1 : Nat).log2 ≤ 64 := by
    by_cases zero : i.natAbs = 0
    · exact .inl zero
    · have log : i.natAbs.log2 < 64 := (Nat.log2_lt zero).mpr small
      have unit : (1 : Nat).log2 = 0 := by decide
      rw [unit]
      exact .inr (by omega)
  exact sizeLe_round Nat.one_ne_zero bounded (by decide) (by decide)

theorem sizeLe_div {x : Double} {size : Int} (bounded : x.SizeLe size) (above : -1074 ≤ size)
    (below : size ≤ 1022) {negative : Bool} {mantissa : Nat} {exponent : Int}
    (nonzero : mantissa ≠ 0) (large : 0 ≤ (mantissa.log2 : Int) + exponent) :
    (x.div (.finite negative mantissa exponent)).SizeLe (size + 1) := by
  cases x with
  | finite s m e => exact sizeLe_round nonzero (bounded.imp_right fun small => by omega) above below
  | infinite => cases bounded
  | nan => cases bounded

end Double

namespace Json

open Double

theorem powerOfTen_eq {e : Nat} (small : e ≤ 308) :
    ∃ negative mantissa exponent, powerOfTen e = .finite negative mantissa exponent ∧
      mantissa ≠ 0 ∧ 0 ≤ (mantissa.log2 : Int) + exponent := by
  have all : ∀ e < 309, (match powerOfTen e with
      | .finite _ mantissa exponent => mantissa != 0 && decide (0 ≤ (mantissa.log2 : Int) + exponent)
      | _ => false) = true := by
    decide +kernel
  have one := all e (by omega)
  split at one
  · rename_i written
    simp only [Bool.and_eq_true, bne_iff_ne, decide_eq_true_eq] at one
    exact ⟨_, _, _, written, one⟩
  · cases one

theorem isFinite_scale {x y : Double} {e size : Int} {steps : Nat} (bounded : x.SizeLe size)
    (above : -1074 ≤ size) (below : size + steps ≤ 1022) (scaled : scale x e steps = some y) :
    y.isFinite = true := by
  induction steps generalizing x e size with
  | zero => cases scaled
  | succ steps ih =>
    rw [scale] at scaled
    split at scaled
    · split at scaled
      · split at scaled
        · cases scaled
          rfl
        · cases scaled
      · obtain ⟨s, m, k, power, nonzero, large⟩ := powerOfTen_eq (e := (-e).toNat) (by omega)
        rw [power] at scaled
        cases scaled
        exact (sizeLe_div bounded above (by omega) nonzero large).isFinite
    · split at scaled
      · cases scaled
        exact bounded.isFinite
      · split at scaled
        · cases scaled
        · obtain ⟨s, m, k, power, nonzero, large⟩ := powerOfTen_eq (e := 308) (by omega)
          rw [power] at scaled
          exact ih (sizeLe_div bounded above (by omega) nonzero large) (by omega) (by omega) scaled

theorem collect_le {limit significand : Nat} (digits : List Nat) (within : significand ≤ limit) :
    (collect limit significand digits).1 ≤ limit := by
  fun_induction collect limit significand digits with
  | case1 => exact within
  | case2 significand d ds fits ih => exact ih fits
  | case3 => exact within

theorem isFinite_withExponent {negative : Bool} {significand : Nat} {e : Int}
    {exponent : Option (Bool × List Nat)} {x : Double} (small : significand ≤ maxUnsigned)
    (read : withExponent negative significand e exponent = some x) : x.isFinite = true := by
  have fromParts {e : Int} {x : Double} (read : fromParts negative significand e = some x) :
      x.isFinite = true := by
    obtain ⟨y, scaled, rfl⟩ := Option.map_eq_some_iff.mp read
    have bound : significand < wordBound 64 := by
      have := show 0 < wordBound 64 by decide
      rw [maxUnsigned] at small
      omega
    have finite := isFinite_scale (sizeLe_ofInt (i := significand) bound) (by decide) (by decide) scaled
    split
    · rw [isFinite_neg, finite]
    · exact finite
  rw [withExponent.eq_def] at read
  split at read
  · exact fromParts read
  · split at read
    · exact fromParts read
    · split at read
      · cases read
        rfl
      · cases read

/-- A number that can be read: whole within 64 bits, or finite. -/
def IsNumber : Json → Prop
  | .int i => FitsWord i
  | .double x => x.isFinite = true
  | _ => False

theorem isNumber_of_value? {n : NumberText} {value : Json} (read : n.value? = some value) :
    IsNumber value := by
  have small := collect_le n.whole (Nat.zero_le maxUnsigned)
  have bounds : wordBound 63 < wordBound 64 := by decide
  rw [NumberText.value?] at read
  generalize collect maxUnsigned 0 n.whole = collected at small read
  obtain ⟨significand, dropped⟩ := collected
  dsimp only at small read
  split at read
  · split at read
    · split at read
      · cases read
        rw [maxUnsigned] at small
        exact (isFinite_neg _).trans (sizeLe_ofInt (by omega)).isFinite
      · rename_i fits
        cases read
        simp only [Bool.or_eq_true, decide_eq_true_eq, not_or] at fits
        exact ⟨by omega, by omega⟩
    · cases read
      rw [maxUnsigned] at small
      exact ⟨by omega, by omega⟩
  · obtain ⟨x, found, rfl⟩ := Option.map_eq_some_iff.mp read
    exact isFinite_withExponent small found
  · obtain ⟨x, found, rfl⟩ := Option.map_eq_some_iff.mp read
    exact isFinite_withExponent (collect_le _ small) found

end Json

end ApiWorkflow
