/-! # Searching text

First occurrences of a piece of text, and the pieces between marks. `splitAtFirst`
gives the text on both sides of an occurrence; `occursIn` only tells whether there
is one.
-/

namespace ApiWorkflow.Text

/-- The rest of the text behind `piece`, if the text starts with it. -/
def stripPiece {α : Type} [DecidableEq α] : List α → List α → Option (List α)
  | [], cs => some cs
  | _ :: _, [] => none
  | p :: piece, c :: cs => if p = c then stripPiece piece cs else none

theorem stripPiece_eq_some_iff {α : Type} [DecidableEq α] {piece cs rest : List α} :
    stripPiece piece cs = some rest ↔ cs = piece ++ rest := by
  fun_induction stripPiece piece cs <;> grind

/-- The text before and behind the first occurrence of `piece`. -/
def splitAtFirst {α : Type} [DecidableEq α] (piece : List α) : List α → Option (List α × List α)
  | [] => (stripPiece piece []).map fun rest => ([], rest)
  | c :: cs =>
    match stripPiece piece (c :: cs) with
    | some rest => some ([], rest)
    | none => (splitAtFirst piece cs).map fun (before, rest) => (c :: before, rest)

/-- Whether `piece` occurs somewhere in the text. -/
def occursIn {α : Type} [DecidableEq α] (piece : List α) (cs : List α) : Bool :=
  (splitAtFirst piece cs).isSome

/-- The pieces of a text between the places where a mark stands. -/
def cutAt {α : Type} [DecidableEq α] (mark : α) : List α → List (List α)
  | [] => [[]]
  | c :: cs =>
    if c = mark then [] :: cutAt mark cs
    else
      match cutAt mark cs with
      | [] => [[c]]
      | piece :: rest => (c :: piece) :: rest

end ApiWorkflow.Text
