import ApiWorkflow.Proofs.Document.Outline
import ApiWorkflow.Proofs.Document.Positions

/-! # The lines of the workflows and steps of an outline

A workflow whose id is its own gets the line on which it is written. A step gets the last
line on which a step with its id is written, in whatever workflow that is: its own line, if
no later workflow has a step with this id.
-/

namespace ApiWorkflow

theorem getElem?_flatMap_eq_some_iff {α β : Type} {f : α → List β} {values : List α} {n : Nat} {b : β} :
    (values.flatMap f)[n]? = some b ↔ ∃ before a after k, values = before ++ a :: after ∧
      (f a)[k]? = some b ∧ n = (before.flatMap f).length + k := by
  constructor
  · intro here
    induction values generalizing n with
    | nil => simp at here
    | cons a values ih =>
      rw [List.flatMap_cons, List.getElem?_append] at here
      split at here
      · exact ⟨[], a, values, n, rfl, here, by simp⟩
      · obtain ⟨before, a', after, k, rfl, found, position⟩ := ih here
        refine ⟨a :: before, a', after, k, rfl, found, ?_⟩
        rw [List.flatMap_cons, List.length_append]
        omega
  · rintro ⟨before, a, after, k, rfl, found, rfl⟩
    have inside := (List.getElem?_eq_some_iff.mp found).1
    rw [List.flatMap_append, List.flatMap_cons, List.getElem?_append_right (Nat.le_add_right _ _),
      Nat.add_sub_cancel_left, List.getElem?_append_left inside, found]

theorem append_cons_cases {α : Type} {before before' after after' : List α} {a a' : α}
    (same : before ++ a :: after = before' ++ a' :: after') :
    (∃ between, before' = before ++ a :: between ∧ after = between ++ a' :: after') ∨
      before = before' ∧ a = a' ∧ after = after' ∨
      ∃ between, before = before' ++ a' :: between ∧ after' = between ++ a :: after := by
  rcases List.append_eq_append_iff.mp same with ⟨between, rfl, rest⟩ | ⟨between, rfl, rest⟩
  · cases between with
    | nil =>
      obtain ⟨rfl, rfl⟩ := List.cons.inj rest
      exact .inr (.inl ⟨by simp, rfl, rfl⟩)
    | cons b between =>
      obtain ⟨rfl, rfl⟩ := List.cons.inj rest
      exact .inl ⟨between, rfl, rfl⟩
  · cases between with
    | nil =>
      obtain ⟨rfl, rfl⟩ := List.cons.inj rest
      exact .inr (.inl ⟨by simp, rfl, rfl⟩)
    | cons b between =>
      obtain ⟨rfl, rfl⟩ := List.cons.inj rest
      exact .inr (.inr ⟨between, rfl, rfl⟩)

theorem eq_of_nodup_map {α β : Type} {f : α → β} {before before' after after' : List α} {a a' : α}
    (distinct : ((before ++ a :: after).map f).Nodup)
    (same : before ++ a :: after = before' ++ a' :: after') (value : f a = f a') : before = before' := by
  rcases append_cons_cases same with ⟨between, rfl, rfl⟩ | ⟨here, -, -⟩ | ⟨between, rfl, rfl⟩
  · simp [List.nodup_append, value] at distinct
  · exact here
  · simp [List.nodup_append, value] at distinct

namespace Outline

/-- The line on which a workflow is written behind others. -/
def workflowLine (before : List WorkflowOutline) : Nat :=
  (rows before).length

/-- The line on which a step is written behind those that come first in its workflow. -/
def stepLine (before : List WorkflowOutline) (outline : WorkflowOutline) (first : List StepOutline) :
    Nat :=
  (rows (before ++ [{ outline with steps := first }])).length

theorem stepLine_eq (before : List WorkflowOutline) (outline : WorkflowOutline)
    (first : List StepOutline) :
    stepLine before outline first = workflowLine before + 2 + (first.flatMap StepOutline.rows).length := by
  simp [stepLine, workflowLine, rows, WorkflowOutline.rows]
  omega

/-- A step with an id is written on a line. -/
def StepOn (outlines : List WorkflowOutline) (id : String) (line : Nat) : Prop :=
  ∃ before outline after first step rest, outlines = before ++ outline :: after ∧
    outline.steps = first ++ step :: rest ∧ step.id = id ∧ line = stepLine before outline first

/-- A workflow with an id is written on a line. -/
def WorkflowOn (outlines : List WorkflowOutline) (id : String) (line : Nat) : Prop :=
  ∃ before outline after, outlines = before ++ outline :: after ∧ outline.id = id ∧
    line = workflowLine before

/-- What stands on the lines of an outline. -/
inductive RowAt : List WorkflowOutline → Nat → List Char → Prop where
  | header (outlines : List WorkflowOutline) : RowAt outlines 0 "workflows:".toList
  | workflow (before : List WorkflowOutline) (outline : WorkflowOutline) (after : List WorkflowOutline) :
    RowAt (before ++ outline :: after) (workflowLine before)
      ("  - workflowId: ".toList ++ outline.id.toList)
  | steps (before : List WorkflowOutline) (outline : WorkflowOutline) (after : List WorkflowOutline) :
    RowAt (before ++ outline :: after) (workflowLine before + 1) "    steps:".toList
  | step (before : List WorkflowOutline) (id : String) (first : List StepOutline) (step : StepOutline)
      (rest : List StepOutline) (after : List WorkflowOutline) :
    RowAt (before ++ ⟨id, first ++ step :: rest⟩ :: after) (stepLine before ⟨id, first ++ step :: rest⟩ first)
      ("      - stepId: ".toList ++ step.id.toList)
  | operation (before : List WorkflowOutline) (id : String) (first : List StepOutline) (step : StepOutline)
      (rest : List StepOutline) (after : List WorkflowOutline) :
    RowAt (before ++ ⟨id, first ++ step :: rest⟩ :: after)
      (stepLine before ⟨id, first ++ step :: rest⟩ first + 1)
      ("        operationId: ".toList ++ step.operation.toList)

theorem rowAt_of_getElem? {outlines : List WorkflowOutline} {n : Nat} {row : List Char}
    (here : (rows outlines)[n]? = some row) : RowAt outlines n row := by
  cases n with
  | zero =>
    cases here
    exact .header outlines
  | succ n =>
    rw [rows, List.getElem?_cons_succ] at here
    obtain ⟨before, ⟨id, steps⟩, after, k, rfl, found, rfl⟩ := getElem?_flatMap_eq_some_iff.mp here
    rcases k with _ | _ | k
    · cases found
      exact .workflow before ⟨id, steps⟩ after
    · cases found
      exact .steps before ⟨id, steps⟩ after
    · rw [WorkflowOutline.rows, List.getElem?_cons_succ, List.getElem?_cons_succ] at found
      obtain ⟨first, step, rest, i, rfl, inside, rfl⟩ := getElem?_flatMap_eq_some_iff.mp found
      have position : (before.flatMap WorkflowOutline.rows).length +
          ((first.flatMap StepOutline.rows).length + i + 2) + 1 =
          stepLine before ⟨id, first ++ step :: rest⟩ first + i := by
        rw [stepLine_eq, workflowLine, rows, List.length_cons]
        omega
      rw [position]
      rcases i with _ | _ | i
      · cases inside
        exact .step before id first step rest after
      · cases inside
        exact .operation before id first step rest after
      · cases inside

theorem getElem?_rows_workflow (before : List WorkflowOutline) (outline : WorkflowOutline)
    (after : List WorkflowOutline) :
    (rows (before ++ outline :: after))[workflowLine before]? =
      some ("  - workflowId: ".toList ++ outline.id.toList) := by
  rw [workflowLine, rows, rows, List.length_cons, List.getElem?_cons_succ, getElem?_flatMap_eq_some_iff]
  exact ⟨before, outline, after, 0, rfl, rfl, rfl⟩

theorem getElem?_rows_step (before : List WorkflowOutline) (outline : WorkflowOutline)
    (after : List WorkflowOutline) {first rest : List StepOutline} {step : StepOutline}
    (split : outline.steps = first ++ step :: rest) :
    (rows (before ++ outline :: after))[stepLine before outline first]? =
      some ("      - stepId: ".toList ++ step.id.toList) := by
  have inside : outline.rows[(first.flatMap StepOutline.rows).length + 2]? =
      some ("      - stepId: ".toList ++ step.id.toList) := by
    rw [WorkflowOutline.rows, List.getElem?_cons_succ, List.getElem?_cons_succ,
      getElem?_flatMap_eq_some_iff]
    exact ⟨first, step, rest, 0, split, rfl, rfl⟩
  have position : stepLine before outline first = (before.flatMap WorkflowOutline.rows).length +
      ((first.flatMap StepOutline.rows).length + 2) + 1 := by
    rw [stepLine_eq, workflowLine, rows, List.length_cons]
    omega
  rw [position, rows, List.getElem?_cons_succ, getElem?_flatMap_eq_some_iff]
  exact ⟨before, outline, after, _, rfl, inside, rfl⟩

/-! ## The lines that declare something -/

theorem declared?_append {lead key : List Char} {id : String} (isWord : IsWord id)
    (fromKey : Positions.toKey (lead ++ id.toList) = key ++ [':', ' '] ++ id.toList) :
    Positions.declared? key (lead ++ id.toList) =
      some (Positions.width lead - Positions.width (key ++ [':', ' ']), id.toList) := by
  have split : key ++ [':', ' '] ++ id.toList = key ++ ':' :: ' ' :: id.toList := by simp
  rw [Positions.declared?_word (fromKey.trans split) (fun c member => (isWord.chars c member).1)
    isWord.nonempty, fromKey, Positions.width_append, Positions.width_append, Nat.add_sub_add_right]

section Declared

variable {outlines : List WorkflowOutline} (valid : ∀ outline ∈ outlines, outline.Valid)
include valid

/-- The lines with the key of a workflow are those on which a workflow is written. -/
theorem declared?_workflowId_iff {n column : Nat} {id : String} :
    (∃ row, (rows outlines)[n]? = some row ∧
        Positions.declared? "workflowId".toList row = some (column, id.toList)) ↔
      column = 4 ∧ WorkflowOn outlines id n := by
  constructor
  · rintro ⟨row, here, declares⟩
    cases rowAt_of_getElem? here with
    | header => cases declares
    | workflow before outline after =>
      have isWord := (valid outline (by simp)).id.word
      rw [declared?_append isWord rfl] at declares
      obtain ⟨rfl, same⟩ := Prod.mk.inj (Option.some.inj declares)
      exact ⟨rfl, before, outline, after, rfl, String.toList_injective same, rfl⟩
    | steps => cases declares
    | step => cases declares
    | operation => cases declares
  · rintro ⟨rfl, before, outline, after, rfl, rfl, rfl⟩
    have isWord := (valid outline (by simp)).id.word
    refine ⟨_, getElem?_rows_workflow before outline after, ?_⟩
    rw [declared?_append isWord rfl]
    rfl

theorem declared?_stepId_iff {n column : Nat} {id : String} :
    (∃ row, (rows outlines)[n]? = some row ∧
        Positions.declared? "stepId".toList row = some (column, id.toList)) ↔
      column = 8 ∧ StepOn outlines id n := by
  constructor
  · rintro ⟨row, here, declares⟩
    cases rowAt_of_getElem? here with
    | header => cases declares
    | workflow => cases declares
    | steps => cases declares
    | step before workflow first step rest after =>
      have isWord := ((valid ⟨workflow, first ++ step :: rest⟩ (by simp)).steps step (by simp)).id.word
      rw [declared?_append isWord rfl] at declares
      obtain ⟨rfl, same⟩ := Prod.mk.inj (Option.some.inj declares)
      exact ⟨rfl, before, _, after, first, step, rest, rfl, rfl, String.toList_injective same, rfl⟩
    | operation => cases declares
  · rintro ⟨rfl, before, outline, after, first, step, rest, rfl, split, rfl, rfl⟩
    have isWord := ((valid outline (by simp)).steps step (by simp [split])).id.word
    refine ⟨_, getElem?_rows_step before outline after split, ?_⟩
    rw [declared?_append isWord rfl]
    rfl

theorem lines_text : Text.lines (text outlines).toList = rows outlines := by
  rw [text, String.toList_ofList]
  exact lines_unlines fun _ => isRow_rows valid

theorem mem_entries_workflow {id : String} {n : Nat} :
    (Document.workflowMark ++ id, n) ∈ Positions.entries (text outlines).toList ↔
      WorkflowOn outlines id n := by
  rw [Positions.mem_entries_workflowMark, lines_text valid,
    Positions.mem_ofKey_iff fun _ _ _ => declared?_workflowId_iff valid]

theorem mem_entries_step {id : String} {n : Nat} :
    (Document.stepMark ++ id, n) ∈ Positions.entries (text outlines).toList ↔
      StepOn outlines id n := by
  rw [Positions.mem_entries_stepMark, lines_text valid,
    Positions.mem_ofKey_iff fun _ _ _ => declared?_stepId_iff valid]

end Declared

/-! ## The lines of a parsed outline -/

theorem WorkflowOn.unique {outlines : List WorkflowOutline} (distinct : (outlines.map (·.id)).Nodup)
    {id : String} {line other : Nat} (on : WorkflowOn outlines id line)
    (onOther : WorkflowOn outlines id other) : line = other := by
  obtain ⟨before, outline, after, rfl, rfl, rfl⟩ := on
  obtain ⟨before', outline', after', same, value, rfl⟩ := onOther
  rw [eq_of_nodup_map distinct same value.symm]

/-- The last line on which a step with an id is written. -/
def IsLastStepLine (outlines : List WorkflowOutline) (id : String) (line : Nat) : Prop :=
  StepOn outlines id line ∧ ∀ other, StepOn outlines id other → other ≤ line

theorem stepLine_lt (before between : List WorkflowOutline) {outline : WorkflowOutline}
    {first rest : List StepOutline} {step : StepOutline} (split : outline.steps = first ++ step :: rest)
    (later : WorkflowOutline) (firstLater : List StepOutline) :
    stepLine before outline first < stepLine (before ++ outline :: between) later firstLater := by
  simp only [stepLine_eq, workflowLine, rows, WorkflowOutline.rows, StepOutline.rows, split,
    List.flatMap_append, List.flatMap_cons, List.length_cons, List.length_append]
  omega

/-- The last line is that of a step itself if no later workflow has a step with its id. -/
theorem IsLastStepLine.eq_stepLine_iff {before after : List WorkflowOutline} {outline : WorkflowOutline}
    {first rest : List StepOutline} {step : StepOutline} (split : outline.steps = first ++ step :: rest)
    (distinct : (outline.steps.map (·.id)).Nodup) {line : Nat}
    (last : IsLastStepLine (before ++ outline :: after) step.id line) :
    line = stepLine before outline first ↔ ∀ later ∈ after, ∀ other ∈ later.steps, other.id ≠ step.id := by
  constructor
  · rintro rfl later memberLater other memberOther sameId
    obtain ⟨between, after, rfl⟩ := List.append_of_mem memberLater
    obtain ⟨firstLater, restLater, splitLater⟩ := List.append_of_mem memberOther
    have above := last.2 (stepLine (before ++ outline :: between) later firstLater)
      ⟨_, later, after, firstLater, other, restLater, by simp, splitLater, sameId, rfl⟩
    have below := stepLine_lt before between split later firstLater
    omega
  · intro alone
    obtain ⟨⟨before', outline', after', first', step', rest', same, split', sameId, rfl⟩, greatest⟩ := last
    rcases append_cons_cases same with ⟨between, rfl, rfl⟩ | ⟨rfl, rfl, rfl⟩ | ⟨between, rfl, rfl⟩
    · exact absurd sameId (alone outline' (by simp) step' (by simp [split']))
    · rw [split] at distinct
      rw [eq_of_nodup_map distinct (split.symm.trans split') sameId.symm]
    · have own := greatest (stepLine (before' ++ outline' :: between) outline first)
        ⟨_, outline, after, first, step, rest, rfl, split, rfl, rfl⟩
      have below := stepLine_lt before' between split' outline first
      omega

/-- The step of an outline with the line that is kept for its id. -/
def placedStep (positions : Fields Nat) (outline : StepOutline) : Step :=
  { step outline with line := Document.lineOf positions (Document.stepMark ++ outline.id) }

theorem operationId_placedStep (positions : Fields Nat) {outline : StepOutline}
    (valid : outline.Valid) :
    (placedStep positions outline).operationId =
      if Yaml.Scalar.isNull outline.operation.toList then none else some outline.operation := by
  have nonempty : outline.operation.isEmpty = false := by
    simpa using valid.operation.nonempty
  simp [placedStep, step, nonempty]

/-- The workflow of an outline with the lines that are kept for its ids. -/
def placed (positions : Fields Nat) (outline : WorkflowOutline) : Workflow :=
  { workflow outline with
    line := Document.lineOf positions (Document.workflowMark ++ outline.id)
    steps := outline.steps.map (placedStep positions) }

theorem withLines_workflows (positions : Fields Nat) (outlines : List WorkflowOutline) :
    (Document.withLines positions { workflows := outlines.map workflow }).workflows =
      outlines.map (placed positions) := by
  have steps : ∀ outline : WorkflowOutline, ((workflow outline).steps.map fun s =>
      { s with line := Document.lineOf positions (Document.stepMark ++ s.stepId) }) =
      outline.steps.map (placedStep positions) := by
    intro outline
    rw [workflow, List.map_map]
    rfl
  rw [Document.withLines, List.map_map]
  refine List.map_congr_left fun outline _ => ?_
  simp only [Function.comp_apply, steps]
  rfl

theorem parse_text {outlines : List WorkflowOutline} (valid : ∀ outline ∈ outlines, outline.Valid) :
    ∃ d, Document.parse (text outlines) = .ok d ∧
      d.workflows = outlines.map (placed (Positions.scan (text outlines).toList)) := by
  have first : ∃ cs, (text outlines).toList = 'w' :: cs := by
    rw [text, String.toList_ofList]
    exact ⟨_, rfl⟩
  have yaml : Format.ofText (text outlines).toList = .yaml := by
    obtain ⟨cs, same⟩ := first
    rw [same]
    rfl
  refine ⟨_, Document.parse_eq_ok_iff.mpr ⟨?_, _, ?_, rfl⟩, withLines_workflows _ outlines⟩
  · obtain ⟨cs, same⟩ := first
    rw [same]
    exact Text.isBlankText_cons rfl cs
  · rw [yaml]
    exact decode_text valid

section Kept

variable {before after : List WorkflowOutline} {outline : WorkflowOutline}
  (valid : ∀ other ∈ before ++ outline :: after, other.Valid)
include valid

theorem lineOf_workflow (distinct : ((before ++ outline :: after).map (·.id)).Nodup) :
    Document.lineOf (Positions.scan (text (before ++ outline :: after)).toList)
      (Document.workflowMark ++ outline.id) = workflowLine before := by
  have on : WorkflowOn (before ++ outline :: after) outline.id (workflowLine before) :=
    ⟨before, outline, after, rfl, rfl, rfl⟩
  obtain ⟨member, -⟩ := Positions.lineOf_scan ((mem_entries_workflow valid).mpr on)
  exact ((mem_entries_workflow valid).mp member).unique distinct on

theorem isLastStepLine_lineOf {first rest : List StepOutline} {step : StepOutline}
    (split : outline.steps = first ++ step :: rest) :
    IsLastStepLine (before ++ outline :: after) step.id (Document.lineOf
      (Positions.scan (text (before ++ outline :: after)).toList) (Document.stepMark ++ step.id)) := by
  have on : StepOn (before ++ outline :: after) step.id (stepLine before outline first) :=
    ⟨before, outline, after, first, step, rest, rfl, split, rfl, rfl⟩
  obtain ⟨member, greatest⟩ := Positions.lineOf_scan ((mem_entries_step valid).mpr on)
  refine ⟨(mem_entries_step valid).mp member, ?_⟩
  intro other onOther
  exact greatest other ((mem_entries_step valid).mpr onOther)

end Kept

/-- Every workflow of an outline gets the line on which it is written, and every step its operation
    and the last line on which a step with its id is written. -/
theorem lines_of_parsed_outline {outlines : List WorkflowOutline}
    (valid : ∀ outline ∈ outlines, outline.Valid) (distinct : (outlines.map (·.id)).Nodup)
    (distinctSteps : ∀ outline ∈ outlines, (outline.steps.map (·.id)).Nodup) :
    ∃ d, Document.parse (text outlines) = .ok d ∧ d.workflows.length = outlines.length ∧
      ∀ before outline after, outlines = before ++ outline :: after →
        ∃ workflow, d.workflows[before.length]? = some workflow ∧ workflow.workflowId = outline.id ∧
          workflow.line = workflowLine before ∧ workflow.steps.length = outline.steps.length ∧
          ∀ first step rest, outline.steps = first ++ step :: rest →
            ∃ s, workflow.steps[first.length]? = some s ∧ s.stepId = step.id ∧
              s.operationId =
                (if Yaml.Scalar.isNull step.operation.toList then none else some step.operation) ∧
              IsLastStepLine outlines step.id s.line ∧
              (s.line = stepLine before outline first ↔
                ∀ later ∈ after, ∀ other ∈ later.steps, other.id ≠ step.id) := by
  obtain ⟨d, parsed, workflows⟩ := parse_text valid
  refine ⟨d, parsed, by rw [workflows, List.length_map], ?_⟩
  rintro before outline after rfl
  have line := lineOf_workflow valid distinct
  have last := fun first step rest (split : outline.steps = first ++ step :: rest) =>
    isLastStepLine_lineOf valid split
  generalize Positions.scan (text (before ++ outline :: after)).toList = positions at workflows line last
  refine ⟨placed positions outline, by rw [workflows]; simp, rfl, line, by simp [placed], ?_⟩
  intro first step rest split
  have isStep := (valid outline (by simp)).steps step (by simp [split])
  refine ⟨placedStep positions step, by simp [placed, split], rfl,
    operationId_placedStep positions isStep, last first step rest split, ?_⟩
  exact (last first step rest split).eq_stepLine_iff split (distinctSteps outline (by simp))

/-- Two workflows that both have a step to pay. -/
def order : WorkflowOutline := ⟨"order", [⟨"pick", "getItem"⟩, ⟨"pay", "postPayment"⟩]⟩
def refund : WorkflowOutline := ⟨"refund", [⟨"pay", "deletePayment"⟩]⟩

theorem lines_of_order_and_refund :
    ((∀ outline ∈ [order, refund], outline.Valid) ∧ ([order, refund].map (·.id)).Nodup ∧
      ∀ outline ∈ [order, refund], (outline.steps.map (·.id)).Nodup) ∧
    ∃ d first second pick pay payBack, Document.parse (text [order, refund]) = .ok d ∧
      d.workflows[0]? = some first ∧ d.workflows[1]? = some second ∧
      first.line = 1 ∧ second.line = 7 ∧
      first.steps[0]? = some pick ∧ first.steps[1]? = some pay ∧ second.steps[0]? = some payBack ∧
      pick.line = 3 ∧ pay.line ≠ 5 ∧ payBack.line = 9 := by
  have assumptions : (∀ outline ∈ [order, refund], outline.Valid) ∧
      ([order, refund].map (·.id)).Nodup ∧
      ∀ outline ∈ [order, refund], (outline.steps.map (·.id)).Nodup := by decide +kernel
  obtain ⟨valid, distinct, distinctSteps⟩ := assumptions
  obtain ⟨d, parsed, -, lines⟩ := lines_of_parsed_outline valid distinct distinctSteps
  obtain ⟨first, here, -, line, -, steps⟩ := lines [] order [refund] rfl
  obtain ⟨second, here', -, line', -, steps'⟩ := lines [order] refund [] rfl
  obtain ⟨pick, inFirst, -, -, -, ownPick⟩ := steps [] _ _ rfl
  obtain ⟨pay, inFirst', -, -, -, ownPay⟩ := steps [⟨"pick", "getItem"⟩] _ _ rfl
  obtain ⟨payBack, inSecond, -, -, -, ownPayBack⟩ := steps' [] _ _ rfl
  refine ⟨⟨valid, distinct, distinctSteps⟩, d, first, second, pick, pay, payBack, parsed, here, here',
    line, line', inFirst, inFirst', inSecond, ownPick.mpr (by decide), ?_, ownPayBack.mpr (by decide)⟩
  intro own
  exact absurd (ownPay.mp own) (by decide)

/-- A step whose id a later workflow uses again is not given its own line. -/
theorem not_own_line_of_shared_id :
    let outlines : List WorkflowOutline := [⟨"a", [⟨"s", "o"⟩]⟩, ⟨"b", [⟨"s", "p"⟩]⟩]
    (∀ outline ∈ outlines, outline.Valid) ∧ (outlines.map (·.id)).Nodup ∧
      (∀ outline ∈ outlines, (outline.steps.map (·.id)).Nodup) ∧
      ∃ d ∈ (Document.parse (text outlines)).toOption,
        ((d.workflows[0]?.bind (·.steps[0]?)).map (·.line)) = some 7 ∧
        stepLine [] ⟨"a", [⟨"s", "o"⟩]⟩ [] = 3 := by
  decide +kernel

end Outline

end ApiWorkflow
