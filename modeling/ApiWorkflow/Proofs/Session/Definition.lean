import ApiWorkflow.Proofs.Command.Lookup
import ApiWorkflow.Proofs.Description.DeclaredLine
import ApiWorkflow.Proofs.Session.Saving
import Mathlib.Data.List.Infix

/-! # From a step to its operation

An editor goes from a line that gives an id to the operation of that id, and a check of the
document asks for the operation of each step. The first reads the id off the line, the second
has it from the document. Both ask for the same operation, so once any operation is known, a
step is warned about if and only if its line leads nowhere.
-/

namespace ApiWorkflow

open Text

namespace OperationId

/-- A word as it may stand in a line: bare, or between two quotes of one kind. -/
inductive InQuotes (word : List Char) : List Char → Prop where
  | bare : InQuotes word word
  | quoted {q : Char} (quote : isQuote q = true) : InQuotes word (q :: (word ++ [q]))

/-- A line gives an id behind the first keyword in it. A bare id goes on to the end of the line
    or to a character that no id has. -/
inductive Names : List Char → List Char → Prop where
  | mk {before key blanks further value id rest : List Char} (first : ¬keyword <:+: before)
      (keyed : InQuotes keyword key) (blankBefore : ∀ c ∈ blanks, isBlank c = true)
      (blankAfter : ∀ c ∈ further, isBlank c = true) (valued : InQuotes id value)
      (nonempty : id ≠ []) (inside : ∀ c ∈ id, isEnd c = false)
      (ends : value = id → rest.head?.all isEnd = true) :
      Names (before ++ (key ++ (blanks ++ ':' :: (further ++ (value ++ rest))))) id

theorem keyword_unbordered (shared : List Char) (ends : shared <:+ keyword)
    (begins : shared <+: keyword) : shared = [] ∨ shared = keyword := by
  have known : ∀ shared ∈ keyword.tails, shared <+: keyword → shared = [] ∨ shared = keyword := by
    decide
  exact known shared ((List.mem_tails shared keyword).mpr ends) begins

theorem firstKeyword_of_absent {before : List Char} (absent : ¬keyword <:+: before)
    (rest : List Char) : FirstKeyword (before ++ (keyword ++ rest)) before rest :=
  ⟨rfl, fun _ _ => length_le_of_absent keyword_unbordered absent⟩

theorem isEnd_of_isQuote {q : Char} (quote : isQuote q = true) : isEnd q = true := by
  simp [isEnd, quote]

theorem InQuotes.exists_firstKeyword {before key : List Char} (keyed : InQuotes keyword key)
    (absent : ¬keyword <:+: before) (rest : List Char) :
    ∃ front closing, (∀ c ∈ closing, isQuote c = true) ∧
      FirstKeyword (before ++ (key ++ rest)) front (closing ++ rest) := by
  cases keyed with
  | bare => exact ⟨before, [], List.forall_mem_nil _, firstKeyword_of_absent absent rest⟩
  | quoted quote =>
    rename_i q
    have mark : q ∉ keyword := by
      intro member
      have letters : keyword.all (fun c => !isQuote c) = true := by decide
      have noQuote := List.all_eq_true.mp letters q member
      rw [quote] at noQuote
      cases noQuote
    have still : ¬keyword <:+: before ++ [q] := by
      rw [infix_append_cons_iff mark, List.infix_nil]
      rintro (here | nothing)
      · exact absent here
      · cases nothing
    have whole : before ++ (q :: (keyword ++ [q]) ++ rest) =
        before ++ [q] ++ (keyword ++ ([q] ++ rest)) := by simp
    rw [whole]
    exact ⟨before ++ [q], [q], List.forall_mem_singleton.mpr quote,
      firstKeyword_of_absent still ([q] ++ rest)⟩

theorem InQuotes.exists_ends {id value : List Char} (valued : InQuotes id value) {rest : List Char}
    (ends : value = id → rest.head?.all isEnd = true) :
    ∃ opening behind, (∀ c ∈ opening, isQuote c = true) ∧ behind.head?.all isEnd = true ∧
      value ++ rest = opening ++ (id ++ behind) := by
  cases valued with
  | bare => exact ⟨[], rest, List.forall_mem_nil _, ends rfl, rfl⟩
  | quoted quote =>
    rename_i q
    exact ⟨[q], q :: rest, List.forall_mem_singleton.mpr quote, isEnd_of_isQuote quote, by simp⟩

theorem Names.declared?_eq {line id : List Char} (names : Names line id) :
    declared? line = some id := by
  obtain ⟨first, keyed, blankBefore, blankAfter, valued, nonempty, inside, ends⟩ := names
  rename_i before key blanks further value rest
  obtain ⟨opening, behind, opens, ends, split⟩ := valued.exists_ends ends
  obtain ⟨front, closing, closes, here⟩ :=
    keyed.exists_firstKeyword first (blanks ++ ':' :: (further ++ (value ++ rest)))
  refine declared?_eq_some_iff.mpr ⟨front, _, here, ?_⟩
  rw [split]
  exact .mk closes blankBefore blankAfter opens nonempty inside ends

theorem Names.trimmed_eq {line id : List Char} (names : Names line id) :
    trimmed (String.ofList id) = String.ofList id ∧ (String.ofList id).isEmpty = false := by
  obtain ⟨-, -, -, -, -, nonempty, inside, -⟩ := names
  have solid : trim id = id := trim_of_forall fun c member => (classes_of_isEnd (inside c member)).1
  refine ⟨by rw [trimmed, String.toList_ofList, solid], ?_⟩
  simpa using nonempty

end OperationId

theorem Check.operationIdOf?_of_names {line id : List Char} (names : OperationId.Names line id)
    {step : Step} (runs : step.operationId = some (String.ofList id)) :
    operationIdOf? step = some (String.ofList id) := by
  obtain ⟨same, nonempty⟩ := names.trimmed_eq
  rw [operationIdOf?, runs, Option.map_some, same, Option.filter_some, nonempty]
  rfl

namespace Session

theorem definition?_of_names {s : Session} {uri text : String} (isOpen : s.text? uri = some text)
    {n : Nat} {line : List Char} (here : (lines text.toList)[n]? = some line) {id : List Char}
    (names : OperationId.Names line id) {character : Nat} (within : character ≤ line.length) :
    s.definition? uri n character =
      s.catalog.index.find? (OperationId.bare (String.ofList id)) := by
  have fits : ¬line.length < character := Nat.not_lt.mpr within
  simp only [definition?, isOpen, here, names.declared?_eq, Option.bind_eq_bind, Option.bind_some,
    if_neg fits]

/-- A line that gives an id leads to the operation that a check looks up for a step with that id. -/
theorem definition?_agrees_with_check (s : Session) {uri text : String}
    (isOpen : s.text? uri = some text) {n : Nat} {line : List Char}
    (here : (lines text.toList)[n]? = some line) {id : List Char}
    (names : OperationId.Names line id) {character : Nat} (within : character ≤ line.length) :
    s.definition? uri n character =
      s.catalog.index.find? (OperationId.bare (String.ofList id)) ∧
    (s.catalog.index.size ≠ 0 → ∀ (d : Document), ∀ step ∈ Check.stepsOf d,
      step.operationId = some (String.ofList id) →
        (Check.unresolved step (String.ofList id) ∈ Check.document s.catalog.index d ↔
          s.definition? uri n character = none)) ∧
    (s.catalog.index.WellFormed → ∀ operation, s.definition? uri n character = some operation →
      operation.operationId = OperationId.bare (String.ofList id)) := by
  rw [definition?_of_names isOpen here names within]
  refine ⟨rfl, ?_, ?_⟩
  · intro asked d step isStep runs
    exact Check.unresolved_mem_document_iff asked isStep (Check.operationIdOf?_of_names names runs)
  · intro wellFormed operation found
    exact wellFormed.keyed _ _ found

/-- The keyword and the id are in quotes, and the name of a source stands in front of the id. -/
theorem definition?_agrees_with_check_on_qualified_id :
    let world : Moment := ⟨⟨.dir 1 [("a.json".toList, .file (Catalog.declaring "x") 1)], []⟩, 0⟩
    let id := "$sourceDescriptions.pets.x"
    let line := "- \x7bstepId: a, 'operationId' : \"$sourceDescriptions.pets.x\"\x7d".toList
    let text := "steps:\n" ++ String.ofList line
    let step : Step := { stepId := "a", operationId := some id, line := 1 }
    let d : Document := { workflows := [{ workflowId := "flow", steps := [step] }] }
    let known := (new {}).withCatalog ((new {}).catalog.handle {} world (.index "/a.json")).1
    let s := (known.changeText "file:///flow.yaml" text).1
    Reached {} s ∧ OperationId.Names line id.toList ∧ s.catalog.index.size = 1 ∧
      (∃ operation, s.definition? "file:///flow.yaml" 1 40 = some operation ∧
        operation.operationId = "x") ∧
      Check.unresolved step id ∉ Check.document s.catalog.index d := by
  intro world id line text step d known s
  have reached : Reached {} s :=
    .changed "file:///flow.yaml" text (.asked world (.index "/a.json") .start)
  have names : OperationId.Names line id.toList := by
    have parts : line = "- \x7bstepId: a, ".toList ++ ("'operationId'".toList ++
        ([' '] ++ ':' :: ([' '] ++ ('"' :: (id.toList ++ ['"']) ++ ['}'])))) := by decide
    have inside : id.toList.all (fun c => !OperationId.isEnd c) = true := by decide
    rw [parts]
    exact .mk (by decide) (.quoted rfl) (List.forall_mem_singleton.mpr rfl)
      (List.forall_mem_singleton.mpr rfl) (.quoted rfl) (by decide) (by simpa using inside)
      (by decide)
  have known : s.catalog.index.size = 1 := by decide +kernel
  obtain ⟨-, warned, keyed⟩ := definition?_agrees_with_check s
    (show s.text? "file:///flow.yaml" = some text by decide +kernel)
    (show (lines text.toList)[1]? = some line by decide +kernel) names
    (show 40 ≤ line.length by decide)
  have found : (s.definition? "file:///flow.yaml" 1 40).isSome := by decide +kernel
  obtain ⟨operation, leads⟩ := Option.isSome_iff_exists.mp found
  refine ⟨reached, names, known, ⟨operation, leads, ?_⟩, ?_⟩
  · rw [keyed reached.wellFormed operation leads]
    decide
  · have asked : s.catalog.index.size ≠ 0 := by
      rw [known]
      decide
    have same : String.ofList id.toList = id := String.ofList_toList
    rw [← same, warned asked d step List.mem_cons_self (congrArg some same.symm), leads]
    exact nofun

end Session

end ApiWorkflow
