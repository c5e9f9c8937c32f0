import ApiWorkflow.Json.Printer
import ApiWorkflow.Json.Text
import Mathlib.Data.List.TakeWhile

/-! # Reading the text of a leaf

Strings and whole numbers are read back from their text, and what follows a leaf does
not change how it is read unless a number could go on there.
-/

namespace ApiWorkflow.Json

open Source

/-! ## Strings -/

theorem hex4?_quoteChar {n : Nat} (low : n < 0x20) :
    hex4? '0' '0' (hexChar (n / 16)) (hexChar (n % 16)) = some n := by
  revert n
  decide

theorem joinParts_unit {n : Nat} (low : n < 0xD800) (parts : List StringPart) :
    joinParts (.unit n :: parts) = (joinParts parts).map (Char.ofNat n :: ·) := by
  have notHigh : ¬(0xD800 ≤ n && n ≤ 0xDBFF) = true := by grind
  have notLow : ¬(0xDC00 ≤ n && n ≤ 0xDFFF) = true := by grind
  rw [joinParts.eq_def]
  simp only [if_neg notHigh, if_neg notLow]

/-- What is written for a character reads as one part, which stands for the character. -/
theorem stringParts_quoteChar (c : Char) :
    ∃ part, (∀ parts, joinParts (part :: parts) = (joinParts parts).map (c :: ·)) ∧
      ∀ cs, stringParts (quoteChar c ++ cs) =
        (stringParts cs).map fun (parts, rest) => (part :: parts, rest) := by
  by_cases short : c ∈ ['"', '\\', '\n', '\r', '\t', '\x08', '\x0c']
  · refine ⟨.char c, fun parts => by rw [joinParts], fun cs => ?_⟩
    simp only [List.mem_cons, List.not_mem_nil, or_false] at short
    rcases short with rfl | rfl | rfl | rfl | rfl | rfl | rfl <;>
      · simp only [quoteChar]
        cases read : stringParts cs <;> simp [stringParts, escaped?, read]
  · simp only [List.mem_cons, List.not_mem_nil, or_false, not_or] at short
    by_cases control : c.toNat < 0x20
    · refine ⟨.unit c.toNat, fun parts => ?_, fun cs => ?_⟩
      · rw [joinParts_unit (by omega), Char.ofNat_toNat]
      · have written : quoteChar c =
            ['\\', 'u', '0', '0', hexChar (c.toNat / 16), hexChar (c.toNat % 16)] := by
          simp [quoteChar, short, control]
        rw [written]
        simp only [List.cons_append, List.nil_append]
        rw [stringParts, hex4?_quoteChar control]
        cases stringParts cs <;> rfl
    · refine ⟨.char c, fun parts => by rw [joinParts], fun cs => ?_⟩
      have written : quoteChar c = [c] := by simp [quoteChar, short, control]
      rw [written, List.singleton_append, stringParts]
      · simp [short, control]
      all_goals simp [short]

theorem stringParts_quote (cs rest : List Char) :
    ∃ parts, stringParts (cs.flatMap quoteChar ++ '"' :: rest) = some (parts, rest) ∧
      joinParts parts = some cs := by
  induction cs with
  | nil => exact ⟨[], by simp [stringParts], rfl⟩
  | cons c cs ih =>
    obtain ⟨parts, read, joined⟩ := ih
    obtain ⟨part, stands, readFirst⟩ := stringParts_quoteChar c
    refine ⟨part :: parts, ?_, ?_⟩
    · rw [List.flatMap_cons, List.append_assoc, readFirst, read, Option.map_some]
    · rw [stands, joined, Option.map_some]

theorem toList_quote (s : String) :
    (quote s).toList = '"' :: (s.toList.flatMap quoteChar ++ ['"']) :=
  String.toList_ofList

theorem readString_quote (s : String) (rest : List Char) :
    readString (s.toList.flatMap quoteChar ++ '"' :: rest) = some (.string (some s), rest) := by
  obtain ⟨parts, read, joined⟩ := stringParts_quote s.toList rest
  simp [readString, read, joined]

/-! ## Numbers -/

theorem isDigit_of_core {c : Char} (digit : c.isDigit = true) : isDigit c = true := by
  simpa [isDigit, Char.isDigit, Char.le_def] using digit

theorem takeDigits_of_all {cs : List Char} (digits : ∀ c ∈ cs, isDigit c = true) :
    takeDigits cs = (cs.map fun c => c.toNat - 0x30, []) := by
  rw [takeDigits, List.takeWhile_eq_self_iff.mpr digits, List.dropWhile_eq_nil_iff.mpr digits]

theorem le_ofDigitChars (cs : List Char) (before : Nat) : before ≤ Nat.ofDigitChars 10 cs before := by
  have scaled : 1 * before ≤ 10 ^ cs.length * before :=
    Nat.mul_le_mul_right before (Nat.one_le_pow _ _ (by decide))
  rw [Nat.ofDigitChars_eq_ofDigitChars_zero]
  omega

theorem collect_eq {limit : Nat} (cs : List Char) {before : Nat}
    (fits : Nat.ofDigitChars 10 cs before ≤ limit) :
    collect limit before (cs.map fun c => c.toNat - 0x30) =
      (Nat.ofDigitChars 10 cs before, []) := by
  induction cs generalizing before with
  | nil => rfl
  | cons c cs ih =>
    have step : before * 10 + (c.toNat - 0x30) = 10 * before + (c.toNat - '0'.toNat) := by
      rw [Nat.mul_comm]
      rfl
    rw [Nat.ofDigitChars_cons] at fits ⊢
    rw [List.map_cons, collect, step, if_pos, ih fits]
    exact (le_ofDigitChars _ _).trans fits

theorem toDigits_head {n : Nat} (positive : 0 < n) :
    ∃ c cs, Nat.toDigits 10 n = c :: cs ∧ c.toNat - 0x30 ≠ 0 := by
  induction n using Nat.strongRecOn with
  | ind n ih =>
    by_cases small : n < 10
    · refine ⟨n.digitChar, [], Nat.toDigits_of_lt_base small, ?_⟩
      have digit : ∀ n < 10, 0 < n → n.digitChar.toNat - 0x30 ≠ 0 := by decide
      exact digit n small positive
    · obtain ⟨c, cs, written, head⟩ := ih (n / 10) (by omega) (by omega)
      refine ⟨c, cs ++ [(n % 10).digitChar], ?_, head⟩
      rw [Nat.toDigits_of_base_le (by decide) (by omega), written, List.cons_append]

/-- The digits of a number as values. -/
def digitsOf (n : Nat) : List Nat :=
  (Nat.toDigits 10 n).map fun c => c.toNat - 0x30

theorem readNumber_toDigits (negative : Bool) (n : Nat) :
    readNumber negative (Nat.toDigits 10 n) =
      some (.number (NumberText.value? ⟨negative, digitsOf n, none, none⟩), []) := by
  have digits : ∀ c ∈ Nat.toDigits 10 n, isDigit c = true :=
    fun c member => isDigit_of_core (Nat.isDigit_of_mem_toDigits (by decide) (by decide) member)
  rw [readNumber, takeDigits_of_all digits, ← digitsOf]
  rcases Nat.eq_zero_or_pos n with rfl | positive
  · rfl
  · obtain ⟨c, cs, written, head⟩ := toDigits_head positive
    have split : digitsOf n = (c.toNat - 0x30) :: cs.map fun c => c.toNat - 0x30 := by
      rw [digitsOf, written, List.map_cons]
    rw [split]
    dsimp only
    split
    · rename_i nothing
      cases nothing
    · rename_i zero
      exact absurd (List.cons.inj zero).1 head
    · rfl

theorem collect_digitsOf {limit n : Nat} (fits : n ≤ limit) :
    collect limit 0 (digitsOf n) = (n, []) := by
  rw [digitsOf, collect_eq] <;> rw [Nat.ofDigitChars_ten_toDigits]
  exact fits

/-- The whole numbers that are read as such. -/
def FitsWord (i : Int) : Prop :=
  -(wordBound 63 : Int) ≤ i ∧ i < wordBound 64

theorem value?_digitsOf {i : Int} (fits : FitsWord i) :
    NumberText.value? ⟨i < 0, digitsOf i.natAbs, none, none⟩ = some (.int i) := by
  obtain ⟨above, below⟩ := fits
  have small : i.natAbs ≤ maxUnsigned := by
    have := show wordBound 63 < wordBound 64 by decide
    rw [maxUnsigned]
    omega
  rw [NumberText.value?, collect_digitsOf small]
  by_cases negative : i < 0
  · have whole : ¬(i.natAbs = 0 || decide (wordBound 63 < i.natAbs)) = true := by
      simp only [Bool.or_eq_true, decide_eq_true_eq, not_or]
      omega
    simp only [negative, decide_true, if_true, if_neg whole]
    congr
    omega
  · simp only [negative, decide_false, Bool.false_eq_true, if_false]
    congr
    omega

theorem toList_toString_int (i : Int) :
    (toString i).toList = if i < 0 then '-' :: Nat.toDigits 10 i.natAbs else Nat.toDigits 10 i.natAbs := by
  rw [Int.toString_eq_repr, Int.repr_eq_if]
  by_cases negative : i < 0
  · rw [if_neg (by omega), if_pos negative, Nat.repr_eq_ofList_toDigits]
    simp
    congr
    omega
  · rw [if_pos (by omega), if_neg negative, Nat.repr_eq_ofList_toDigits, String.toList_ofList]
    congr
    omega

/-! ## What follows a leaf -/

/-- A text with which no number goes on. -/
def Stops (rest : List Char) : Prop :=
  ∀ c ∈ rest.head?, isDigit c = false ∧ c ≠ '.' ∧ c ≠ 'e' ∧ c ≠ 'E'

variable {rest : List Char}

theorem takeDigits_append (stops : Stops rest) (cs : List Char) :
    takeDigits (cs ++ rest) = ((takeDigits cs).1, (takeDigits cs).2 ++ rest) := by
  induction cs with
  | nil =>
    cases rest with
    | nil => rfl
    | cons c rest =>
      have noDigit : isDigit c = false := (stops c rfl).1
      simp [takeDigits, noDigit]
  | cons c cs ih =>
    by_cases digit : isDigit c = true
    · simp_all [takeDigits]
    · simp [takeDigits, digit]

theorem readFraction_append (stops : Stops rest) {cs behind : List Char}
    {fraction : Option (List Nat)} (read : readFraction cs = some (fraction, behind)) :
    readFraction (cs ++ rest) = some (fraction, behind ++ rest) := by
  have without {text : List Char} (noPoint : ∀ c ∈ text.head?, c ≠ '.') :
      readFraction text = some (none, text) := by
    rw [readFraction]
    rintro digits rfl
    exact noPoint '.' rfl rfl
  cases cs with
  | nil =>
    cases read
    exact without fun c first => (stops c first).2.1
  | cons c cs =>
    by_cases point : c = '.'
    · subst point
      rw [List.cons_append, readFraction, takeDigits_append stops]
      rw [readFraction] at read
      rcases taken : takeDigits cs with ⟨_ | ⟨digit, digits⟩, others⟩
      · simp [taken] at read
      · simp_all
    · rw [without (by simpa using point)] at read
      cases read
      rw [without (by simpa using point), List.cons_append]

theorem readExponentDigits_append (stops : Stops rest) {down : Bool} {cs behind : List Char}
    {exponent : Option (Bool × List Nat)}
    (read : readExponentDigits down cs = some (exponent, behind)) :
    readExponentDigits down (cs ++ rest) = some (exponent, behind ++ rest) := by
  rw [readExponentDigits] at read ⊢
  rw [takeDigits_append stops]
  rcases taken : takeDigits cs with ⟨_ | ⟨digit, digits⟩, others⟩
  · simp [taken] at read
  · simp_all

theorem readExponent_append (stops : Stops rest) {cs behind : List Char}
    {exponent : Option (Bool × List Nat)} (read : readExponent cs = some (exponent, behind)) :
    readExponent (cs ++ rest) = some (exponent, behind ++ rest) := by
  cases cs with
  | nil =>
    cases read
    cases rest with
    | nil => rfl
    | cons c rest =>
      obtain ⟨-, -, small, large⟩ := stops c rfl
      simp [readExponent, small, large]
  | cons c cs =>
    rw [readExponent.eq_def] at read ⊢
    simp only [List.cons_append] at read ⊢
    split at read
    · rename_i mark
      rw [if_pos mark]
      cases cs with
      | nil => cases read
      | cons sign cs =>
        rw [List.cons_append]
        split at read
        · rename_i same
          cases same
          exact readExponentDigits_append stops read
        · rename_i same
          cases same
          exact readExponentDigits_append stops read
        · rename_i noPlus noMinus
          split
          · rename_i same
            cases same
            exact absurd rfl (noPlus _)
          · rename_i same
            cases same
            exact absurd rfl (noMinus _)
          · exact readExponentDigits_append stops read
    · rename_i mark
      rw [if_neg mark]
      cases read
      rfl

theorem readNumber_append (stops : Stops rest) {negative : Bool} {cs behind : List Char}
    {leaf : Leaf} (read : readNumber negative cs = some (leaf, behind)) :
    readNumber negative (cs ++ rest) = some (leaf, behind ++ rest) := by
  rw [readNumber] at read ⊢
  rw [takeDigits_append stops]
  generalize takeDigits cs = taken at read ⊢
  obtain ⟨whole, others⟩ := taken
  dsimp only at read ⊢
  split at read
  · cases read
  · cases read
  · obtain ⟨⟨fraction, afterFraction⟩, readFraction, read⟩ := Option.bind_eq_some_iff.mp read
    obtain ⟨⟨exponent, afterExponent⟩, readExponent, read⟩ := Option.bind_eq_some_iff.mp read
    cases read
    rw [readFraction_append stops readFraction]
    simp only [Option.bind_eq_bind, Option.bind_some]
    rw [readExponent_append stops readExponent]
    rfl

theorem head_of_readNumber {negative : Bool} {cs behind : List Char} {leaf : Leaf}
    (read : readNumber negative cs = some (leaf, behind)) :
    ∃ c tail, cs = c :: tail ∧ isDigit c = true := by
  cases cs with
  | nil => cases read
  | cons c tail =>
    refine ⟨c, tail, rfl, ?_⟩
    by_contra noDigit
    simp [readNumber, takeDigits, noDigit] at read

theorem readLeaf_digit {c : Char} (digit : isDigit c = true) (cs : List Char) :
    readLeaf (c :: cs) = readNumber false (c :: cs) := by
  rw [readLeaf]
  all_goals
    intros
    rename_i same
    cases same
    exact absurd digit (by decide)

theorem readLeaf_append (stops : Stops rest) {cs behind : List Char} {value : Option Json}
    (read : readLeaf cs = some (.number value, behind)) :
    readLeaf (cs ++ rest) = some (.number value, behind ++ rest) := by
  fun_cases readLeaf cs with
  | case1 => simp [readLeaf] at read
  | case2 => simp [readLeaf] at read
  | case3 => simp [readLeaf] at read
  | case4 cs =>
    rw [readLeaf, readString] at read
    obtain ⟨parts, -, string⟩ := Option.map_eq_some_iff.mp read
    cases string
  | case5 cs =>
    rw [readLeaf] at read
    rw [List.cons_append, readLeaf]
    exact readNumber_append stops read
  | case6 =>
    have asNumber : readLeaf cs = readNumber false cs := by
      rw [readLeaf] <;> assumption
    rw [asNumber] at read
    obtain ⟨c, tail, rfl, digit⟩ := head_of_readNumber read
    rw [List.cons_append, readLeaf_digit digit]
    exact readNumber_append stops read

theorem readLeaf_int (i : Int) :
    ∃ value, readLeaf (toString i).toList = some (.number value, []) ∧
      (FitsWord i → value = some (.int i)) := by
  refine ⟨NumberText.value? ⟨i < 0, digitsOf i.natAbs, none, none⟩, ?_, value?_digitsOf⟩
  rw [toList_toString_int]
  split
  · rename_i negative
    rw [readLeaf, readNumber_toDigits, decide_eq_true negative]
  · rename_i negative
    have read := readNumber_toDigits false i.natAbs
    obtain ⟨c, tail, written, digit⟩ := head_of_readNumber read
    rw [written, readLeaf_digit digit, ← written, read, decide_eq_false negative]

end ApiWorkflow.Json
