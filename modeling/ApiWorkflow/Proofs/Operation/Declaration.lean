import ApiWorkflow.Proofs.Description.DeclaredLine
import Mathlib.Order.Bounds.Basic

/-! # The grammar of lines that declare an operation

A line that declares an id can be cut into the parts of a declaration, and in one way only. So
the line of an id is the first one with such a cut, and no line that declares an id of which
this one is a part.
-/

namespace ApiWorkflow.OperationId

open Text

/-! ## Declarations -/

/-- The characters that a quotation may begin and end with. -/
def quoteSigns : List Char := ['"', '\'']

/-- Blanks and these signs do not belong to an id. -/
def EndsId (c : Char) : Prop :=
  isBlank c = true ∨ c ∈ quoteSigns ++ [',', '}', '#']

/-- A line cut into the parts of a declaration. -/
@[ext]
structure Declaration (line : List Char) where
  /-- What stands in front of the keyword. -/
  front : List Char
  /-- The quotes right behind the keyword. -/
  closing : List Char
  /-- The blanks on both sides of the colon. -/
  before : List Char
  after : List Char
  /-- The quotes right in front of the id. -/
  opening : List Char
  id : List Char
  rest : List Char
  whole : line = front ++ (keyword ++ (closing ++ (before ++ ':' ::
    (after ++ (opening ++ (id ++ rest))))))
  first : ∀ earlier later, line = earlier ++ (keyword ++ later) → front.length ≤ earlier.length
  closes : ∀ c ∈ closing, c ∈ quoteSigns
  blankBefore : ∀ c ∈ before, isBlank c = true
  blankAfter : ∀ c ∈ after, isBlank c = true
  opens : ∀ c ∈ opening, c ∈ quoteSigns
  nonempty : id ≠ []
  inside : ∀ c ∈ id, ¬EndsId c
  ends : ∀ c, rest.head? = some c → EndsId c

theorem isQuote_iff {c : Char} : isQuote c = true ↔ c ∈ quoteSigns := by
  simp only [isQuote, Bool.or_eq_true, beq_iff_eq, quoteSigns, List.mem_cons, List.not_mem_nil,
    or_false]

theorem isEnd_iff {c : Char} : isEnd c = true ↔ EndsId c := by
  simp only [isEnd, Bool.or_eq_true, beq_iff_eq, isQuote_iff, EndsId, List.mem_append,
    List.mem_cons, List.not_mem_nil, or_false, or_assoc]

theorem all_isEnd_iff {rest : List Char} :
    rest.head?.all isEnd = true ↔ ∀ c, rest.head? = some c → EndsId c := by
  simp only [Option.all_eq_true, isEnd_iff]

namespace Declaration

variable {line : List Char}

theorem inside_eq_false (d : Declaration line) : ∀ c ∈ d.id, isEnd c = false := by
  intro c member
  rw [← Bool.not_eq_true, isEnd_iff]
  exact d.inside c member

/-! ## What a line declares -/

theorem declares (d : Declaration line) : declared? line = some d.id := by
  refine declared?_eq_some_iff.mpr ⟨d.front, _, ⟨d.whole, d.first⟩, ?_⟩
  exact .mk (fun c member => isQuote_iff.mpr (d.closes c member)) d.blankBefore d.blankAfter
    (fun c member => isQuote_iff.mpr (d.opens c member)) d.nonempty d.inside_eq_false
    (all_isEnd_iff.mpr d.ends)

theorem exists_of_declared? {id : List Char} (declares : declared? line = some id) :
    ∃ d : Declaration line, d.id = id := by
  obtain ⟨front, behind, ⟨split, first⟩, assigns⟩ := declared?_eq_some_iff.mp declares
  obtain ⟨closes, blankBefore, blankAfter, opens, nonempty, inside, ends⟩ := assigns
  have belongs : ∀ c ∈ id, ¬EndsId c := by
    intro c member
    rw [← isEnd_iff, inside c member]
    exact Bool.false_ne_true
  exact ⟨⟨front, _, _, _, _, id, _, split, first, fun c member => isQuote_iff.mp (closes c member),
    blankBefore, blankAfter, fun c member => isQuote_iff.mp (opens c member), nonempty, belongs,
    all_isEnd_iff.mp ends⟩, rfl⟩

/-! ## The parts are determined -/

theorem stops (d : Declaration line) :
    (d.before ++ ':' :: (d.after ++ (d.opening ++ (d.id ++ d.rest)))).head?.all
        (fun c => !isQuote c) = true ∧
      (d.opening ++ (d.id ++ d.rest)).head?.all (fun c => !isBlank c) = true ∧
      (d.id ++ d.rest).head?.all (fun c => !isQuote c) = true ∧
      d.rest.head?.all (fun c => !(!isEnd c)) = true := by
  have solid : ∀ c ∈ d.id, isBlank c = false ∧ isQuote c = false := fun c member =>
    classes_of_isEnd (d.inside_eq_false c member)
  refine ⟨?_, ?_, ?_, ?_⟩
  · exact stops_append (fun c member => isQuote_of_isBlank (d.blankBefore c member)) rfl
  · refine stops_append ?_ (stops_of_ne_nil d.nonempty fun c member => (solid c member).1)
    exact fun c member => isBlank_of_isQuote (isQuote_iff.mpr (d.opens c member))
  · exact stops_of_ne_nil d.nonempty fun c member => (solid c member).2
  · simpa only [Bool.not_not] using all_isEnd_iff.mpr d.ends

theorem unique (d e : Declaration line) : d = e := by
  have sameLength : d.front.length = e.front.length :=
    Nat.le_antisymm (d.first _ _ e.whole) (e.first _ _ d.whole)
  obtain ⟨front, tail⟩ := List.append_inj (d.whole.symm.trans e.whole) sameLength
  have behind := List.append_cancel_left tail
  obtain ⟨quoteLeft, blankLeft, idLeft, endLeft⟩ := d.stops
  obtain ⟨quoteRight, blankRight, idRight, endRight⟩ := e.stops
  -- From left to right, each run ends where the next part begins.
  obtain ⟨closing, behind⟩ := run_unique behind
    (fun c member => isQuote_iff.mpr (d.closes c member)) quoteLeft
    (fun c member => isQuote_iff.mpr (e.closes c member)) quoteRight
  obtain ⟨before, behind⟩ := run_unique behind d.blankBefore rfl e.blankBefore rfl
  obtain ⟨after, behind⟩ := run_unique (List.cons.inj behind).2 d.blankAfter blankLeft
    e.blankAfter blankRight
  obtain ⟨opening, behind⟩ := run_unique behind
    (fun c member => isQuote_iff.mpr (d.opens c member)) idLeft
    (fun c member => isQuote_iff.mpr (e.opens c member)) idRight
  obtain ⟨id, rest⟩ := run_unique behind
    (fun c member => by rw [d.inside_eq_false c member]; rfl) endLeft
    (fun c member => by rw [e.inside_eq_false c member]; rfl) endRight
  exact Declaration.ext front closing before after opening id rest

end Declaration

theorem declared?_eq_some_iff_declaration {line id : List Char} :
    declared? line = some id ↔ ∃ d : Declaration line, d.id = id := by
  constructor
  · exact Declaration.exists_of_declared?
  · rintro ⟨d, rfl⟩
    exact d.declares

/-! ## The first line that declares an id -/

/-- The numbers of the lines that declare an id. -/
def declaringLines (text id : List Char) : Set Nat :=
  {n | ∃ line, (lines text)[n]? = some line ∧ ∃ d : Declaration line, d.id = id}

theorem lineOf?_eq_some_iff_isLeast {text id : List Char} {n : Nat} :
    lineOf? text id = some n ↔ IsLeast (declaringLines text id) n := by
  simp only [declaringLines, ← declared?_eq_some_iff_declaration]
  constructor
  · intro found
    obtain ⟨bound, declares, before⟩ := List.findIdx?_eq_some_iff_getElem.mp found
    refine ⟨⟨(lines text)[n], List.getElem?_eq_getElem bound, beq_iff_eq.mp declares⟩, ?_⟩
    rintro m ⟨line, here, declares⟩
    obtain ⟨k, le, same⟩ := exists_lineOf?_le here declares
    rw [found, Option.some.injEq] at same
    exact same ▸ le
  · rintro ⟨⟨line, here, declares⟩, least⟩
    obtain ⟨m, le, found⟩ := exists_lineOf?_le here declares
    obtain ⟨bound, declares, -⟩ := List.findIdx?_eq_some_iff_getElem.mp found
    have member : n ≤ m :=
      least ⟨(lines text)[m], List.getElem?_eq_getElem bound, beq_iff_eq.mp declares⟩
    rw [found, Nat.le_antisymm le member]

/-- A line declares an id exactly if it can be cut into the parts of a declaration of this id.
    There is at most one such cut, so the line of an id is the first that can be cut for it, and
    is cut for no other id. -/
theorem declared?_by_unique_declaration :
    (∀ line id, declared? line = some id ↔ ∃ d : Declaration line, d.id = id) ∧
    (∀ line, ∀ d e : Declaration line, d = e) ∧
    ∀ text id n,
      (lineOf? text id = some n ↔ IsLeast (declaringLines text id) n) ∧
      (lineOf? text id = some n →
        ∀ line, (lines text)[n]? = some line → ∀ d : Declaration line, d.id = id) := by
  refine ⟨fun line id => declared?_eq_some_iff_declaration, fun line d e => d.unique e, ?_⟩
  intro text id n
  refine ⟨lineOf?_eq_some_iff_isLeast, ?_⟩
  intro found line here d
  have declares := declared?_of_lineOf? here found
  rw [d.declares] at declares
  exact Option.some.inj declares

/-- Lines before the one of an id declare a longer and a shorter id. -/
theorem declared?_between_similar_ids :
    let text := "operationId: getPetById\noperationId: get\n'operationId' :\t\"'getPet'\" # one\n".toList
    let line := "'operationId' :\t\"'getPet'\" # one".toList
    lineOf? text "getPet".toList = some 2 ∧ IsLeast (declaringLines text "getPet".toList) 2 ∧
      ∀ d : Declaration line, d.id = "getPet".toList := by
  intro text line
  have found : lineOf? text "getPet".toList = some 2 := by decide
  obtain ⟨least, only⟩ := declared?_by_unique_declaration.2.2 text "getPet".toList 2
  exact ⟨found, least.mp found, only found line (by decide)⟩

end ApiWorkflow.OperationId
