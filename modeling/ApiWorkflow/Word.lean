/-! # The sizes of machine words

Numbers that are kept in words of 32, 64 or 128 bits lie below these bounds.
-/

namespace ApiWorkflow

/-- The bound of numbers of some bits. -/
def wordBound (bits : Nat) : Nat :=
  Nat.pow 2 bits

/-- Whether a number fits a signed word of some bits. -/
def fitsSigned (bits : Nat) (i : Int) : Bool :=
  -(wordBound (bits - 1) : Int) ≤ i && i < wordBound (bits - 1)

/-- Whether a number fits an unsigned word of some bits. -/
def fitsUnsigned (bits : Nat) (i : Int) : Bool :=
  0 ≤ i && i < wordBound bits

end ApiWorkflow
