import ApiWorkflow.Proofs.Check.Pass
import ApiWorkflow.Proofs.Operation.Index
import Mathlib.Data.List.Flatten

/-! # What an index changes in the findings

Only an unknown operation is a warning, and only the check of operations looks at the
index. So the errors of a document are the same with every index, and an index that
knows more operations takes warnings away and adds none.
-/

namespace ApiWorkflow.Check

open Text

/-- Problems all of which have a severity. -/
def AllOf (severity : Severity) (problems : List Problem) : Prop :=
  ∀ p ∈ problems, p.severity = severity

variable {severity : Severity}

theorem allOf_nil : AllOf severity [] :=
  fun _ member => nomatch member

theorem allOf_append {left right : List Problem} :
    AllOf severity (left ++ right) ↔ AllOf severity left ∧ AllOf severity right :=
  List.forall_mem_append

theorem allOf_singleton {problem : Problem} (same : problem.severity = severity) :
    AllOf severity [problem] :=
  List.forall_mem_singleton.mpr same

theorem allOf_ite {condition : Prop} [Decidable condition] {left right : List Problem}
    (l : AllOf severity left) (r : AllOf severity right) :
    AllOf severity (if condition then left else right) := by
  split
  · exact l
  · exact r

theorem allOf_problemIf {condition : Bool} {problem : Problem}
    (same : problem.severity = severity) : AllOf severity (problemIf condition problem) :=
  allOf_ite (allOf_singleton same) allOf_nil

theorem AllOf.filter_same {problems : List Problem} (all : AllOf severity problems) :
    problems.filter (·.severity == severity) = problems := by
  rw [List.filter_eq_self]
  intro p member
  rw [all p member, beq_self_eq_true]

theorem AllOf.filter_other {problems : List Problem} (all : AllOf severity problems)
    {other : Severity} (apart : severity ≠ other) :
    problems.filter (·.severity == other) = [] := by
  rw [List.filter_eq_nil_iff]
  intro p member
  rw [all p member, beq_iff_eq]
  exact apart

theorem error_ne_warning : Severity.error ≠ .warning :=
  nofun

/-! ## Checks that find errors only -/

theorem allOf_headerProblems (d : Document) : AllOf .error (headerProblems d) := by
  simp only [headerProblems, allOf_append]
  refine ⟨⟨⟨⟨?_, ?_⟩, ?_⟩, ?_⟩, ?_⟩
  · exact allOf_ite (allOf_singleton rfl) (allOf_problemIf rfl)
  all_goals exact allOf_problemIf rfl

theorem allOf_sourcesProblems (position : Nat) (sources : List SourceDescription) :
    AllOf .error (sourcesProblems position sources) := by
  induction sources generalizing position with
  | nil => exact allOf_nil
  | cons s rest ih =>
    simp only [sourcesProblems, sourceProblems, allOf_append]
    exact ⟨⟨⟨allOf_problemIf rfl, allOf_problemIf rfl⟩, allOf_problemIf rfl⟩, ih _⟩

theorem allOf_workflowProblems (before : List Workflow) (w : Workflow) :
    AllOf .error (workflowProblems before w) := by
  rw [workflowProblems, allOf_append]
  exact ⟨allOf_ite (allOf_singleton rfl) (allOf_problemIf rfl), allOf_problemIf rfl⟩

theorem allOf_stepIdProblems (w : Workflow) (before : List Step) (s : Step) :
    AllOf .error (stepIdProblems w before s) :=
  allOf_ite (allOf_singleton rfl) (allOf_problemIf rfl)

theorem allOf_targetProblems (s : Step) : AllOf .error (targetProblems s) := by
  intro p member
  rcases mem_targetProblems member with rfl | rfl
  · rfl
  · rfl

theorem severity_expressionProblem? {known : List String} {w : Workflow} {before : List Step}
    {s : Step} {e : Expression} {p : Problem}
    (found : expressionProblem? known w before s e = some p) : p.severity = .error := by
  obtain ⟨id, rfl | rfl⟩ := eq_of_expressionProblem? found
  · rfl
  · rfl

/-! ## Errors and warnings of a step -/

/-- An issue of a severity. -/
def isOf (severity : Severity) (issue : Issue) : Bool :=
  issue.problem.severity == severity

theorem filter_isOf_at (severity : Severity) (line : Nat) (problems : List Problem) :
    (problems.map (⟨line, ·⟩ : Problem → Issue)).filter (isOf severity) =
      (problems.filter (·.severity == severity)).map (⟨line, ·⟩) :=
  filter_at (·.severity == severity) line problems

theorem allOf_structureProblems (known : List String) (w : Workflow) (before : List Step)
    (s : Step) : AllOf .error (structureProblems known w before s) := by
  simp only [structureProblems, allOf_append]
  refine ⟨⟨allOf_stepIdProblems w before s, allOf_targetProblems s⟩, ?_⟩
  intro p member
  obtain ⟨e, -, found⟩ := List.mem_filterMap.mp member
  exact severity_expressionProblem? found

theorem allOf_operationProblems (index : OperationIndex) (s : Step) :
    AllOf .warning (operationProblems index s) := by
  intro p member
  obtain ⟨id, rfl⟩ := mem_operationProblems member
  rfl

/-- An index with more operations finds the operation of a step known if a smaller one
    does, unless the smaller one is not asked at all. -/
theorem operationProblems_sublist {index larger : OperationIndex} (asked : index.size ≠ 0)
    (grows : ∀ id, (index.find? id).isSome → (larger.find? id).isSome) (s : Step) :
    (operationProblems larger s).Sublist (operationProblems index s) := by
  unfold operationProblems
  split
  · exact List.Sublist.refl []
  rename_i id _
  dsimp only
  split
  · exact List.Sublist.refl []
  generalize OperationId.bare (trimmed id) = bare
  cases known : index.find? bare with
  | some operation =>
    have taken : larger.isFree bare = false := by
      have isKnown := grows bare (by rw [known]; rfl)
      simpa [OperationIndex.isFree] using isKnown
    rw [taken, Bool.and_false, problemIf, if_neg Bool.false_ne_true]
    exact List.nil_sublist _
  | none =>
    have free : (index.size != 0 && index.isFree bare) = true := by
      simp [asked, OperationIndex.isFree, known]
    rw [free, problemIf, problemIf, if_pos rfl]
    split
    · exact List.Sublist.refl _
    · exact List.nil_sublist _

theorem filter_error_step {empty : OperationIndex} (nothing : empty.size = 0) (known : List String)
    (index : OperationIndex) (w : Workflow) (before : List Step) (s : Step) :
    (step known index w before s).filter (isOf .error) = step known empty w before s := by
  rw [step_eq, step_eq, filter_isOf_at, List.filter_append,
    (allOf_structureProblems known w before s).filter_same,
    (allOf_operationProblems index s).filter_other error_ne_warning.symm,
    operationProblems_of_size nothing]

theorem filter_warning_step (known : List String) (index : OperationIndex) (w : Workflow)
    (before : List Step) (s : Step) :
    (step known index w before s).filter (isOf .warning) =
      (operationProblems index s).map (⟨s.line, ·⟩) := by
  rw [step_eq, filter_isOf_at, List.filter_append,
    (allOf_structureProblems known w before s).filter_other error_ne_warning,
    (allOf_operationProblems index s).filter_same, List.nil_append]

/-! ## Errors and warnings of a document -/

theorem filter_error_workflow {empty : OperationIndex} (nothing : empty.size = 0)
    (known : List String) (index : OperationIndex) (before : List Workflow) (w : Workflow) :
    (workflow known index before w).filter (isOf .error) = workflow known empty before w := by
  rw [workflow, workflow, List.filter_append, filter_isOf_at,
    (allOf_workflowProblems before w).filter_same, steps_eq_eachAfter, steps_eq_eachAfter,
    filter_eachAfter]
  simp only [filter_error_step nothing]

theorem filter_warning_workflow (known : List String) (index : OperationIndex)
    (before : List Workflow) (w : Workflow) :
    (workflow known index before w).filter (isOf .warning) =
      w.steps.flatMap fun s => (operationProblems index s).map (⟨s.line, ·⟩) := by
  rw [workflow, List.filter_append, filter_isOf_at,
    (allOf_workflowProblems before w).filter_other error_ne_warning, steps_eq_eachAfter,
    filter_eachAfter]
  simp only [filter_warning_step, eachAfter_eq_flatMap, List.map_nil, List.nil_append]

theorem filter_error_document {empty : OperationIndex} (nothing : empty.size = 0)
    (index : OperationIndex) (d : Document) :
    (document index d).filter (isOf .error) = document empty d := by
  have pass : (workflows index d).filter (isOf .error) = workflows empty d := by
    rw [workflows, workflows, workflowsAfter_eq_eachAfter, workflowsAfter_eq_eachAfter,
      filter_eachAfter]
    simp only [filter_error_workflow nothing]
  rw [document, document, List.filter_append, List.filter_append, pass, header, sources, atTop,
    atTop, filter_isOf_at, filter_isOf_at, (allOf_headerProblems d).filter_same,
    (allOf_sourcesProblems 1 d.sourceDescriptions).filter_same]

/-- The warnings of a document are those of the operations of its steps, in order. -/
theorem filter_warning_document (index : OperationIndex) (d : Document) :
    (document index d).filter (isOf .warning) = d.workflows.flatMap fun w =>
      w.steps.flatMap fun s => (operationProblems index s).map (⟨s.line, ·⟩) := by
  have pass : (workflows index d).filter (isOf .warning) = d.workflows.flatMap fun w =>
      w.steps.flatMap fun s => (operationProblems index s).map (⟨s.line, ·⟩) := by
    rw [workflows, workflowsAfter_eq_eachAfter, filter_eachAfter]
    simp only [filter_warning_workflow, eachAfter_eq_flatMap]
  rw [document, List.filter_append, List.filter_append, pass, header, sources, atTop, atTop,
    filter_isOf_at, filter_isOf_at, (allOf_headerProblems d).filter_other error_ne_warning,
    (allOf_sourcesProblems 1 d.sourceDescriptions).filter_other error_ne_warning, List.map_nil,
    List.nil_append, List.nil_append]

theorem filter_findings (severity : Severity) (index : OperationIndex) (d : Document) :
    (findings index d).filter (·.severity == severity) =
      ((document index d).filter (isOf severity)).map Issue.finding :=
  List.filter_map

theorem warnings_sublist {index larger : OperationIndex} (asked : index.size ≠ 0)
    (grows : ∀ id, (index.find? id).isSome → (larger.find? id).isSome) (d : Document) :
    ((findings larger d).filter (·.severity == .warning)).Sublist
      ((findings index d).filter (·.severity == .warning)) := by
  rw [filter_findings, filter_findings, filter_warning_document, filter_warning_document]
  apply List.Sublist.map
  apply List.Sublist.flatMap_right
  intro w _
  apply List.Sublist.flatMap_right
  intro s _
  exact (operationProblems_sublist asked grows s).map _

/-- No index changes the errors, which are all that is found without operations; the
    more operations an index knows, the fewer warnings there are. -/
theorem errors_eq_and_warnings_sublist (d : Document) :
    (∀ index empty : OperationIndex, empty.size = 0 →
      (findings index d).filter Finding.isError = findings empty d) ∧
    ∀ index larger : OperationIndex, index.size ≠ 0 →
      (∀ id, (index.find? id).isSome → (larger.find? id).isSome) →
      ((findings larger d).filter (·.severity == .warning)).Sublist
        ((findings index d).filter (·.severity == .warning)) := by
  refine ⟨?_, fun index larger asked grows => warnings_sublist asked grows d⟩
  intro index empty nothing
  have errors := filter_findings .error index d
  rw [filter_error_document nothing] at errors
  exact errors

/-- One of two operations is known at first; then no warning is left, but the errors of a
    document without a header are. -/
theorem findings_of_pets :
    let d : Document := { workflows := [{ workflowId := "pets", steps := [
      { stepId := "get", operationId := some "getPet" },
      { stepId := "add", operationId := some "$sourceDescriptions.pets.addPet" }] }] }
    let index := ({} : OperationIndex).add { operationId := "getPet" }
    let larger := index.add { operationId := "addPet" }
    (findings index d).length = 5 ∧ (findings index d).filter Finding.isError = findings {} d ∧
      ((findings larger d).filter (·.severity == .warning)).Sublist
        ((findings index d).filter (·.severity == .warning)) := by
  intro d index larger
  have asked : index.size ≠ 0 := by decide
  have grows : ∀ id, (index.find? id).isSome → (larger.find? id).isSome := by
    intro id known
    rw [OperationIndex.find?_add, Option.isSome_or, known, Bool.true_or]
  obtain ⟨errors, warnings⟩ := errors_eq_and_warnings_sublist d
  exact ⟨by decide +kernel, errors index {} rfl, warnings index larger asked grows⟩

end ApiWorkflow.Check
