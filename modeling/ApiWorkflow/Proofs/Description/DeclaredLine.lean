import ApiWorkflow.Proofs.Catalog.Reading
import ApiWorkflow.Proofs.Text.Lenient
import ApiWorkflow.Proofs.Text.Runs

/-! # The line that declares an operation

A line declares the id behind the first keyword in it, up to a character that ends an id.
So an operation gets the line of its declaration if the id has no such character and no
other keyword stands before it in the line. An id with a blank, a comma, a brace or a number
sign is found on no line, and neither is the second of two operations on one line.
-/

namespace ApiWorkflow

open Text

namespace OperationId

/-! ## What a line declares -/

/-- A text behind the keyword gives an id: quotes, blanks, a colon, blanks, quotes, the id,
    and then nothing or a character that ends it. -/
inductive Assigns : List Char → List Char → Prop where
  | mk {closing before after opening id rest : List Char}
      (closes : ∀ c ∈ closing, isQuote c = true) (blankBefore : ∀ c ∈ before, isBlank c = true)
      (blankAfter : ∀ c ∈ after, isBlank c = true) (opens : ∀ c ∈ opening, isQuote c = true)
      (nonempty : id ≠ []) (inside : ∀ c ∈ id, isEnd c = false)
      (ends : rest.head?.all isEnd = true) :
      Assigns (closing ++ (before ++ ':' :: (after ++ (opening ++ (id ++ rest))))) id

/-- The keyword stands in a line, and nowhere further left. -/
structure FirstKeyword (line before rest : List Char) : Prop where
  split : line = before ++ (keyword ++ rest)
  first : ∀ earlier later, line = earlier ++ (keyword ++ later) → before.length ≤ earlier.length

theorem isQuote_of_isBlank {c : Char} (blank : isBlank c = true) : isQuote c = false := by
  rw [← Bool.not_eq_true, isQuote, Bool.or_eq_true, beq_iff_eq, beq_iff_eq]
  rintro (rfl | rfl)
  · revert blank
    decide
  · revert blank
    decide

theorem isBlank_of_isQuote {c : Char} (quote : isQuote c = true) : isBlank c = false := by
  rw [← Bool.not_eq_true]
  intro blank
  rw [isQuote_of_isBlank blank] at quote
  cases quote

theorem classes_of_isEnd {c : Char} (inside : isEnd c = false) :
    isBlank c = false ∧ isQuote c = false := by
  simp only [isEnd, Bool.or_eq_false_iff] at inside
  exact ⟨inside.1.1.1.1, inside.1.1.1.2⟩

theorem behindKeyword_of_assigns {text id : List Char} (assigns : Assigns text id) :
    behindKeyword text = some id := by
  obtain ⟨closes, blankBefore, blankAfter, opens, nonempty, inside, ends⟩ := assigns
  rename_i closing before after opening rest
  have idNoBlank : (id ++ rest).head?.all (fun c => !isBlank c) = true :=
    stops_of_ne_nil nonempty fun c member => (classes_of_isEnd (inside c member)).1
  have idNoQuote : (id ++ rest).head?.all (fun c => !isQuote c) = true :=
    stops_of_ne_nil nonempty fun c member => (classes_of_isEnd (inside c member)).2
  have unquoted : (closing ++ (before ++ ':' :: (after ++ (opening ++ (id ++ rest))))).dropWhile
      isQuote = before ++ ':' :: (after ++ (opening ++ (id ++ rest))) :=
    dropWhile_eq_iff.mpr ⟨closing, rfl, closes,
      stops_append (fun c member => isQuote_of_isBlank (blankBefore c member)) rfl⟩
  have colon : trimStart (before ++ ':' :: (after ++ (opening ++ (id ++ rest)))) =
      ':' :: (after ++ (opening ++ (id ++ rest))) :=
    dropWhile_eq_iff.mpr ⟨before, rfl, blankBefore, rfl⟩
  have value : trimStart (after ++ (opening ++ (id ++ rest))) = opening ++ (id ++ rest) :=
    dropWhile_eq_iff.mpr ⟨after, rfl, blankAfter,
      stops_append (fun c member => isBlank_of_isQuote (opens c member)) idNoBlank⟩
  have bare : (opening ++ (id ++ rest)).dropWhile isQuote = id ++ rest :=
    dropWhile_eq_iff.mpr ⟨opening, rfl, opens, idNoQuote⟩
  have read : (id ++ rest).takeWhile (fun c => !isEnd c) = id := by
    refine takeWhile_eq_iff.mpr ⟨rest, rfl, by simpa using inside, ?_⟩
    simpa using ends
  obtain ⟨c, id, rfl⟩ := List.exists_cons_of_ne_nil nonempty
  simp only [behindKeyword, unquoted, colon, value, bare, read]

theorem assigns_of_behindKeyword {text id : List Char} (found : behindKeyword text = some id) :
    Assigns text id := by
  unfold behindKeyword at found
  split at found
  · rename_i behind colon
    have read : ((trimStart behind).dropWhile isQuote).takeWhile (fun c => !isEnd c) = id ∧
        id ≠ [] := by
      split at found
      · cases found
      · rename_i nonempty
        cases found
        exact ⟨rfl, nonempty⟩
    obtain ⟨closing, unquoted, closes, -⟩ :=
      dropWhile_eq_iff.mp (rfl : text.dropWhile isQuote = text.dropWhile isQuote)
    obtain ⟨before, toColon, blankBefore, -⟩ := dropWhile_eq_iff.mp colon
    obtain ⟨after, toValue, blankAfter, -⟩ :=
      dropWhile_eq_iff.mp (rfl : trimStart behind = trimStart behind)
    obtain ⟨opening, bare, opens, -⟩ :=
      dropWhile_eq_iff.mp (rfl : (trimStart behind).dropWhile isQuote = _)
    obtain ⟨rest, toEnd, inside, ends⟩ := takeWhile_eq_iff.mp read.1
    rw [unquoted, toColon, toValue, bare, toEnd]
    refine .mk closes blankBefore blankAfter opens read.2 (by simpa using inside) ?_
    simpa using ends
  · cases found

theorem behindKeyword_eq_some_iff {text id : List Char} :
    behindKeyword text = some id ↔ Assigns text id :=
  ⟨assigns_of_behindKeyword, behindKeyword_of_assigns⟩

theorem FirstKeyword.declared?_eq {line before rest : List Char}
    (here : FirstKeyword line before rest) : declared? line = behindKeyword rest := by
  rw [declared?, splitAtFirst_eq_some_iff.mpr ⟨here.split, here.first⟩]

theorem declared?_eq_some_iff {line id : List Char} :
    declared? line = some id ↔
      ∃ before rest, FirstKeyword line before rest ∧ Assigns rest id := by
  constructor
  · intro declares
    cases cut : splitAtFirst keyword line with
    | none =>
      rw [declared?, cut] at declares
      cases declares
    | some parts =>
      obtain ⟨before, rest⟩ := parts
      obtain ⟨split, first⟩ := splitAtFirst_eq_some_iff.mp cut
      have here : FirstKeyword line before rest := ⟨split, first⟩
      rw [here.declared?_eq, behindKeyword_eq_some_iff] at declares
      exact ⟨before, rest, here, declares⟩
  · rintro ⟨before, rest, here, assigns⟩
    rw [here.declared?_eq, behindKeyword_eq_some_iff]
    exact assigns

theorem lineOf?_eq_none_of_isEnd {text id : List Char} (broken : ∃ c ∈ id, isEnd c = true) :
    lineOf? text id = none := by
  obtain ⟨c, member, isEnd⟩ := broken
  rw [lineOf?, List.findIdx?_eq_none_iff]
  intro line _
  rw [beq_eq_false_iff_ne]
  intro declares
  obtain ⟨before, rest, -, assigns⟩ := declared?_eq_some_iff.mp declares
  obtain ⟨-, -, -, -, -, inside, -⟩ := assigns
  rw [inside c member] at isEnd
  cases isEnd

theorem exists_lineOf?_le {text id line : List Char} {n : Nat} (here : (lines text)[n]? = some line)
    (declares : declared? line = some id) : ∃ m ≤ n, lineOf? text id = some m := by
  obtain ⟨bound, rfl⟩ := List.getElem?_eq_some_iff.mp here
  have known : (declared? (lines text)[n] == some id) = true := beq_iff_eq.mpr declares
  refine ⟨(lines text).findIdx fun line => declared? line == some id, ?_, ?_⟩
  · rw [← Nat.not_lt]
    intro before
    rw [List.not_of_lt_findIdx before] at known
    cases known
  · exact List.findIdx?_eq_some_of_exists ⟨_, List.getElem_mem bound, known⟩

theorem declared?_of_lineOf? {text id line : List Char} {n : Nat} (here : (lines text)[n]? = some line)
    (found : lineOf? text id = some n) : declared? line = some id := by
  obtain ⟨bound, rfl⟩ := List.getElem?_eq_some_iff.mp here
  obtain ⟨_, declares, -⟩ := List.findIdx?_eq_some_iff_getElem.mp found
  exact beq_iff_eq.mp declares

theorem exists_firstKeyword {line before rest : List Char} (split : line = before ++ (keyword ++ rest)) :
    ∃ earlier later, FirstKeyword line earlier later := by
  have occurs : occursIn keyword line = true :=
    occursIn_iff.mpr ⟨before, rest, by rw [split, List.append_assoc]⟩
  obtain ⟨⟨earlier, later⟩, cut⟩ := Option.isSome_iff_exists.mp occurs
  obtain ⟨whole, first⟩ := splitAtFirst_eq_some_iff.mp cut
  exact ⟨earlier, later, whole, first⟩

/-! ## Declarations in double quotes -/

/-- A declaration stands in a line behind some text: the keyword, bare or in quotes, a colon
    with or without blanks around it, and an id in double quotes. -/
inductive Writes : List Char → List Char → List Char → Prop where
  | mk {before closing blanks further id rest : List Char}
      (quoted : closing = [] ∨
        ∃ q, isQuote q = true ∧ before.getLast? = some q ∧ closing = [q])
      (blankBefore : ∀ c ∈ blanks, isBlank c = true)
      (blankAfter : ∀ c ∈ further, isBlank c = true) :
      Writes (before ++ (keyword ++ (closing ++ (blanks ++ ':' ::
        (further ++ '"' :: (id ++ '"' :: rest)))))) before id

theorem Writes.assigns {line before id : List Char} (written : Writes line before id)
    (nonempty : id ≠ []) (inside : ∀ c ∈ id, isEnd c = false) :
    ∃ rest, line = before ++ (keyword ++ rest) ∧ Assigns rest id := by
  obtain ⟨quoted, blankBefore, blankAfter⟩ := written
  rename_i closing blanks further rest
  have closes : ∀ c ∈ closing, isQuote c = true := by
    rcases quoted with rfl | ⟨q, quote, -, rfl⟩
    · exact List.forall_mem_nil _
    · exact List.forall_mem_singleton.mpr quote
  have opens : ∀ c ∈ ['"'], isQuote c = true := List.forall_mem_singleton.mpr rfl
  exact ⟨_, rfl, .mk closes blankBefore blankAfter opens nonempty inside rfl⟩

/-- The line that is found for an id, and with which every operation of that id is recorded
    that is read from the text. -/
structure LineIs (text id : List Char) (line : Option Nat) : Prop where
  found : lineOf? text id = line
  recorded : ∀ uri format extraction, ApiDescription.ofText uri format text = .ok extraction →
    ∀ operation ∈ extraction.description.operations, operation.operationId.toList = id →
      operation.line = line.getD 0

theorem lineIs_of_lineOf? {text id : List Char} {line : Option Nat}
    (found : lineOf? text id = line) : LineIs text id line := by
  refine ⟨found, ?_⟩
  intro uri format extraction reads operation member named
  unfold ApiDescription.ofText at reads
  split at reads
  · cases reads
    obtain ⟨entry, -, inEntry⟩ := List.mem_flatMap.mp member
    obtain ⟨path, method, value, made⟩ := ApiDescription.exists_of_mem_pathOperations inEntry
    simp only [ApiDescription.operationOf?] at made
    split at made
    · cases made
    · cases made
      rw [← found, ← named]
  · cases reads

/-- A declaration in double quotes is found, on its line or before, unless a character of the
    id ends it, or another keyword stands before it in its line and gives something else.
    Then its line is not the one that is found. -/
theorem lineIs_of_writes {text id line before : List Char} {n : Nat} (nonempty : id ≠ [])
    (here : (lines text)[n]? = some line) (written : Writes line before id) :
    (∃ m ≤ n, LineIs text id (some m)) ∨
      ((∃ c ∈ id, isEnd c = true) ∧ LineIs text id none) ∨
      ((∃ earlier rest, FirstKeyword line earlier rest ∧ earlier.length < before.length ∧
        ¬Assigns rest id) ∧ lineOf? text id ≠ some n) := by
  by_cases broken : ∃ c ∈ id, isEnd c = true
  · exact .inr (.inl ⟨broken, lineIs_of_lineOf? (lineOf?_eq_none_of_isEnd broken)⟩)
  have inside : ∀ c ∈ id, isEnd c = false := by simpa using broken
  obtain ⟨behind, split, assigns⟩ := written.assigns nonempty inside
  obtain ⟨earlier, rest, keyword⟩ := exists_firstKeyword split
  by_cases gives : Assigns rest id
  · obtain ⟨m, least, found⟩ :=
      exists_lineOf?_le here (declared?_eq_some_iff.mpr ⟨earlier, rest, keyword, gives⟩)
    exact .inl ⟨m, least, lineIs_of_lineOf? found⟩
  · refine .inr (.inr ⟨⟨earlier, rest, keyword, ?_, gives⟩, ?_⟩)
    · apply Nat.lt_of_le_of_ne (keyword.first before behind split)
      intro same
      -- At the same place the first keyword would be that of the declaration.
      obtain ⟨-, tail⟩ := List.append_inj (keyword.split.symm.trans split) same
      rw [List.append_cancel_left tail] at gives
      exact gives assigns
    · intro found
      have declares := declared?_of_lineOf? here found
      rw [keyword.declared?_eq, behindKeyword_eq_some_iff] at declares
      exact gives declares

/-- The keyword is in quotes, and a line before it does not give the id. -/
theorem lineIs_of_writes_getPet :
    let text := "operationId: getPets\n - \"operationId\" : \"getPet\", tags: []".toList
    let line := " - \"operationId\" : \"getPet\", tags: []".toList
    let id := "getPet".toList
    Writes line " - \"".toList id ∧ ((∃ m ≤ 1, LineIs text id (some m)) ∨
      ((∃ c ∈ id, isEnd c = true) ∧ LineIs text id none) ∨
      ((∃ earlier rest, FirstKeyword line earlier rest ∧ earlier.length < 4 ∧
        ¬Assigns rest id) ∧ lineOf? text id ≠ some 1)) := by
  intro text line id
  have written : Writes line " - \"".toList id :=
    @Writes.mk " - \"".toList ['"'] [' '] [' '] id ", tags: []".toList
      (.inr ⟨'"', rfl, rfl, rfl⟩) (List.forall_mem_singleton.mpr rfl)
      (List.forall_mem_singleton.mpr rfl)
  exact ⟨written, lineIs_of_writes (by decide) (by decide) written⟩

/-- The second of two operations on a line is not found, and is recorded with the first line
    of the text instead of its own. An id with a blank is not found either. -/
theorem declarations_overlooked :
    let before := ("\x7b\"paths\":\x7b\"/p\":\x7b\"get\":\x7b\"operationId\":\"getPet\"\x7d," ++
      "\"put\":\x7b\"").toList
    let line := before ++ "operationId\":\"putPet\"\x7d\x7d\x7d\x7d".toList
    let text := '\n' :: line
    ((lines text)[1]? = some line ∧ Writes line before "putPet".toList ∧
      lineOf? text "putPet".toList = none ∧
      (ApiDescription.ofText "file:///pets.json" .json text).toOption.map
        (fun extraction => extraction.description.operations.map fun o => (o.operationId, o.line)) =
          some [("getPet", 1), ("putPet", 0)]) ∧
    Writes "operationId: \"get pet\"".toList [] "get pet".toList ∧
      lineOf? "operationId: \"get pet\"".toList "get pet".toList = none := by
  intro before line text
  refine ⟨⟨by decide, ?_, by decide, by decide +kernel⟩, ?_, by decide⟩
  · exact @Writes.mk before ['"'] [] [] "putPet".toList "\x7d\x7d\x7d\x7d".toList
      (.inr ⟨'"', rfl, rfl, rfl⟩) (List.forall_mem_nil _) (List.forall_mem_nil _)
  · exact @Writes.mk [] [] [] [' '] "get pet".toList [] (.inl rfl) (List.forall_mem_nil _)
      (List.forall_mem_singleton.mpr rfl)

end OperationId

end ApiWorkflow
