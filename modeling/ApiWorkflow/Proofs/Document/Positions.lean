import ApiWorkflow.Document.Positions
import ApiWorkflow.Proofs.Fields
import Mathlib.Data.List.TakeWhile

/-! # Where the lines of the position map come from

A line in the map is one on which the scan finds a key with an id, and the map keeps it
under the name of that id. Of several lines for an id it keeps the last one.
-/

namespace ApiWorkflow.Positions

open Text

/-- The keys that declare ids, each with the start of its names in the map. -/
def keys : List (String × List Char) :=
  [(Document.workflowMark, "workflowId".toList), (Document.stepMark, "stepId".toList)]

/-- A line that declares an id, and is the one that the map has for it. -/
def Declares (text : List Char) (number : Nat) : Prop :=
  ∃ mark key line column id, (mark, key) ∈ keys ∧ (lines text)[number]? = some line ∧
    declared? key line = some (column, id) ∧
    (scan text).get? (mark ++ String.ofList id) = some number

theorem mem_declarations_iff {key : List Char} {lines : List (List Char)} {number column : Nat}
    {id : List Char} :
    (number, column, id) ∈ declarations key lines ↔
      ∃ line, lines[number]? = some line ∧ declared? key line = some (column, id) := by
  simp only [declarations, List.mem_filterMap, Prod.exists, List.mem_zipIdx_iff_getElem?]
  constructor
  · rintro ⟨line, n, here, found⟩
    cases declares : declared? key line with
    | none => simp [declares] at found
    | some pair =>
      simp only [declares, Option.map_some, Option.some.injEq, Prod.mk.injEq] at found
      obtain ⟨rfl, rfl, rfl⟩ := found
      exact ⟨line, here, declares⟩
  · rintro ⟨line, here, declares⟩
    exact ⟨line, number, here, by rw [declares]; rfl⟩

theorem mem_of_mem_leftmost {found : List (Nat × Nat × List Char)} {entry : Nat × Nat × List Char}
    (member : entry ∈ leftmost found) : entry ∈ found := by
  unfold leftmost at member
  split at member
  · exact (List.mem_filter.mp member).1
  · cases member

theorem mem_ofKey {mark name : String} {key : List Char} {lines : List (List Char)} {number : Nat}
    (member : (name, number) ∈ ofKey mark key lines) :
    ∃ line column id, lines[number]? = some line ∧ declared? key line = some (column, id) ∧
      name = mark ++ String.ofList id := by
  obtain ⟨⟨n, column, id⟩, kept, same⟩ := List.mem_map.mp member
  cases same
  obtain ⟨line, here, declares⟩ := mem_declarations_iff.mp (mem_of_mem_leftmost kept)
  exact ⟨line, column, id, here, declares, rfl⟩

/-- What the map is built from, in the order of the keys and of the lines. -/
def entries (text : List Char) : List (String × Nat) :=
  keys.flatMap fun (mark, key) => ofKey mark key (lines text)

theorem entries_eq (text : List Char) :
    entries text = ofKey Document.workflowMark "workflowId".toList (lines text) ++
      ofKey Document.stepMark "stepId".toList (lines text) := by
  simp [entries, keys]

theorem scan_eq (text : List Char) : scan text = Fields.ofList (entries text) := by
  rw [scan, entries_eq]

theorem declares_of_get? {text : List Char} {name : String} {number : Nat}
    (found : (scan text).get? name = some number) : Declares text number := by
  have member : (name, number) ∈ entries text := by
    rw [scan_eq] at found
    exact Fields.mem_ofList (Fields.mem_of_get? found)
  obtain ⟨⟨mark, key⟩, isKey, member⟩ := List.mem_flatMap.mp member
  obtain ⟨line, column, id, here, declares, rfl⟩ := mem_ofKey member
  exact ⟨mark, key, line, column, id, isKey, here, declares, found⟩

theorem Declares.lt_length {text : List Char} {number : Nat} (declares : Declares text number) :
    number < (lines text).length := by
  obtain ⟨_, _, _, _, _, -, here, -⟩ := declares
  exact (List.getElem?_eq_some_iff.mp here).1

/-! ## The last line of an id -/

theorem pairwise_declarations (key : List Char) (lines : List (List Char)) :
    (declarations key lines).Pairwise fun left right => left.1 < right.1 := by
  have numbers : lines.zipIdx.Pairwise fun left right => left.2 < right.2 := by
    rw [← List.pairwise_map, List.zipIdx_map_snd]
    exact List.pairwise_lt_range'
  rw [declarations, List.pairwise_filterMap]
  refine numbers.imp ?_
  intro left right less a isLeft b isRight
  simp only [Option.map_eq_some_iff] at isLeft isRight
  obtain ⟨_, -, rfl⟩ := isLeft
  obtain ⟨_, -, rfl⟩ := isRight
  exact less

theorem pairwise_ofKey (mark : String) (key : List Char) (lines : List (List Char)) :
    (ofKey mark key lines).Pairwise fun left right => left.1 = right.1 → left.2 < right.2 := by
  rw [ofKey, List.pairwise_map]
  unfold leftmost
  split
  · refine ((pairwise_declarations key lines).filter _).imp ?_
    exact fun less _ => less
  · exact .nil

theorem workflowMark_append_ne (left right : String) :
    Document.workflowMark ++ left ≠ Document.stepMark ++ right := by
  intro same
  have first := congrArg (fun name : String => name.toList.head?) same
  simp [Document.workflowMark, Document.stepMark] at first

theorem mem_entries_workflowMark {text : List Char} {id : String} {number : Nat} :
    (Document.workflowMark ++ id, number) ∈ entries text ↔
      (Document.workflowMark ++ id, number) ∈
        ofKey Document.workflowMark "workflowId".toList (lines text) := by
  rw [entries_eq, List.mem_append, or_iff_left]
  intro member
  obtain ⟨_, _, _, -, -, same⟩ := mem_ofKey member
  exact workflowMark_append_ne _ _ same

theorem mem_entries_stepMark {text : List Char} {id : String} {number : Nat} :
    (Document.stepMark ++ id, number) ∈ entries text ↔
      (Document.stepMark ++ id, number) ∈ ofKey Document.stepMark "stepId".toList (lines text) := by
  rw [entries_eq, List.mem_append, or_iff_right]
  intro member
  obtain ⟨_, _, _, -, -, same⟩ := mem_ofKey member
  exact workflowMark_append_ne _ _ same.symm

theorem pairwise_entries (text : List Char) :
    (entries text).Pairwise fun left right => left.1 = right.1 → left.2 < right.2 := by
  rw [entries_eq, List.pairwise_append]
  refine ⟨pairwise_ofKey _ _ _, pairwise_ofKey _ _ _, ?_⟩
  rintro ⟨left, m⟩ memberLeft ⟨right, n⟩ memberRight same
  obtain ⟨_, _, first, -, -, rfl⟩ := mem_ofKey memberLeft
  obtain ⟨_, _, second, -, -, rfl⟩ := mem_ofKey memberRight
  exact absurd same (workflowMark_append_ne _ _)

theorem get?_scan_iff {text : List Char} {name : String} {number : Nat} :
    (scan text).get? name = some number ↔
      (name, number) ∈ entries text ∧ ∀ other, (name, other) ∈ entries text → other ≤ number := by
  rw [scan_eq]
  exact Fields.get?_ofList_eq_some_iff (pairwise_entries text)

/-- The line of a name is the last one that the text has for it. -/
theorem lineOf_scan {text : List Char} {name : String} {number : Nat}
    (member : (name, number) ∈ entries text) :
    (name, Document.lineOf (scan text) name) ∈ entries text ∧
      ∀ other, (name, other) ∈ entries text → other ≤ Document.lineOf (scan text) name := by
  obtain ⟨last, found⟩ : ∃ last, (scan text).get? name = some last := by
    rw [scan_eq, Fields.get?_ofList]
    exact Fields.exists_get?_of_mem (List.mem_reverse.mpr member)
  rw [Document.lineOf, found]
  exact get?_scan_iff.mp found

/-! ## Lines that declare a word -/

theorem leftmost_eq_self {found : List (Nat × Nat × List Char)} {column : Nat}
    (aligned : ∀ entry ∈ found, entry.2.1 = column) : leftmost found = found := by
  unfold leftmost
  split
  · rename_i least found
    obtain ⟨entry, member, rfl⟩ := List.mem_map.mp (List.min?_mem found)
    rw [List.filter_eq_self]
    intro other memberOther
    rw [aligned other memberOther, aligned entry member, beq_self_eq_true]
  · rename_i nothing
    rw [List.min?_eq_none_iff, List.map_eq_nil_iff] at nothing
    rw [nothing]

theorem mem_ofKey_iff {key : List Char} {lines : List (List Char)} {column : Nat}
    {On : String → Nat → Prop}
    (declared : ∀ n c id, (∃ line, lines[n]? = some line ∧ declared? key line = some (c, String.toList id)) ↔
      c = column ∧ On id n) {mark id : String} {number : Nat} :
    (mark ++ id, number) ∈ ofKey mark key lines ↔ On id number := by
  have aligned : ∀ entry ∈ declarations key lines, entry.2.1 = column := by
    rintro ⟨n, c, cs⟩ member
    rw [mem_declarations_iff, ← String.toList_ofList (l := cs)] at member
    exact ((declared n c (String.ofList cs)).mp member).1
  have here : (number, column, id.toList) ∈ declarations key lines ↔ On id number := by
    rw [mem_declarations_iff, declared]
    exact and_iff_right rfl
  rw [← here, ofKey, leftmost_eq_self aligned, List.mem_map]
  constructor
  · rintro ⟨⟨n, c, cs⟩, member, same⟩
    obtain ⟨name, rfl⟩ := Prod.mk.inj same
    have chars : cs = id.toList := by simpa using congrArg String.toList name
    rwa [← chars, ← aligned _ member]
  · intro member
    refine ⟨_, member, ?_⟩
    simp only [String.ofList_toList]

theorem foldl_width (cs : List Char) (start : Nat) :
    cs.foldl (fun total c => total + c.utf8Size) start = start + width cs := by
  induction cs generalizing start with
  | nil => rfl
  | cons c cs ih =>
    rw [width, List.foldl_cons, List.foldl_cons, ih, ih]
    omega

theorem width_append (left right : List Char) : width (left ++ right) = width left + width right := by
  rw [width, List.foldl_append, foldl_width]
  rfl

theorem idBehind_word {word : List Char} (chars : ∀ c ∈ word, isIdChar c = true)
    (nonempty : word ≠ []) : idBehind (':' :: ' ' :: word) = some word := by
  obtain ⟨c, cs, rfl⟩ := List.exists_cons_of_ne_nil nonempty
  have first := chars c List.mem_cons_self
  simp only [isIdChar, Bool.not_eq_true', Bool.or_eq_false_iff] at first
  have trimmed : trimStart (' ' :: c :: cs) = c :: cs := by
    rw [trimStart, List.dropWhile_cons_of_pos rfl, List.dropWhile_cons_of_neg (by simp [first])]
  have unquoted : skipQuote (c :: cs) = c :: cs := by simp [skipQuote, first]
  have taken : (c :: cs).takeWhile isIdChar = c :: cs := List.takeWhile_eq_self_iff.mpr chars
  have colon : trimStart (skipQuote (':' :: ' ' :: c :: cs)) = ':' :: ' ' :: c :: cs := rfl
  simp only [idBehind, colon, trimmed, unquoted, taken]

theorem declared?_word {key line word : List Char} (fromKey : toKey line = key ++ ':' :: ' ' :: word)
    (chars : ∀ c ∈ word, isIdChar c = true) (nonempty : word ≠ []) :
    declared? key line = some (width line - width (toKey line), word) := by
  have behind : stripPiece key (toKey line) = some (':' :: ' ' :: word) :=
    stripPiece_eq_some_iff.mpr fromKey
  simp only [declared?, behind, idBehind_word chars nonempty, Option.map_some]

end ApiWorkflow.Positions
