import ApiWorkflow.Check.Header
import ApiWorkflow.Check.References
import ApiWorkflow.Operation.Id
import ApiWorkflow.Operation.Index

/-! # Checking workflows and their steps

Ids are compared without the blanks around them. Operations are looked up only if
any are known.
-/

namespace ApiWorkflow.Check

open Text

/-- Problems of the id of a workflow, given the workflows before it. -/
def workflowIdProblems (before : List Workflow) (w : Workflow) : List Problem :=
  let id := trimmed w.workflowId
  if id.isEmpty then [.workflowIdMissing]
  else problemIf (before.any fun b => trimmed b.workflowId == id) (.duplicateWorkflow id)

/-- Problems of a workflow itself, given the workflows before it. -/
def workflowProblems (before : List Workflow) (w : Workflow) : List Problem :=
  workflowIdProblems before w ++ problemIf w.steps.isEmpty (.noSteps (trimmed w.workflowId))

/-- Problems of the id of a step, given the steps before it. -/
def stepIdProblems (workflow : Workflow) (before : List Step) (s : Step) : List Problem :=
  let id := trimmed s.stepId
  if id.isEmpty then [.stepIdMissing workflow.workflowId]
  else problemIf (before.any fun b => trimmed b.stepId == id)
    (.duplicateStep id workflow.workflowId)

/-- A step runs exactly one thing. -/
def targetProblems (s : Step) : List Problem :=
  match s.targets with
  | [] => [.noTarget (trimmed s.stepId)]
  | [_] => []
  | _ => [.manyTargets (trimmed s.stepId)]

/-- An operation that a step runs is known, if any operations are. -/
def operationProblems (index : OperationIndex) (s : Step) : List Problem :=
  match s.operationId with
  | none => []
  | some id =>
    let id := trimmed id
    if id.isEmpty then []
    else
      let bare := OperationId.bare id
      problemIf (index.size != 0 && index.isFree bare) (.unknownOperation bare s.stepId)

/-- Check a step, given the steps before it. -/
def step (known : List String) (index : OperationIndex) (workflow : Workflow) (before : List Step)
    (s : Step) : List Issue :=
  (stepIdProblems workflow before s ++ targetProblems s).map (⟨s.line, ·⟩) ++
    stepReferences known workflow before s ++
    (operationProblems index s).map (⟨s.line, ·⟩)

/-- Check the steps of a workflow that follow others. -/
def steps (known : List String) (index : OperationIndex) (workflow : Workflow) :
    List Step → List Step → List Issue
  | _, [] => []
  | before, s :: rest =>
    step known index workflow before s ++ steps known index workflow (before ++ [s]) rest

/-- Check a workflow, given the workflows before it. -/
def workflow (known : List String) (index : OperationIndex) (before : List Workflow)
    (w : Workflow) : List Issue :=
  (workflowProblems before w).map (⟨w.line, ·⟩) ++ steps known index w [] w.steps

/-- Check the workflows that follow others. -/
def workflowsAfter (known : List String) (index : OperationIndex) :
    List Workflow → List Workflow → List Issue
  | _, [] => []
  | before, w :: rest =>
    workflow known index before w ++ workflowsAfter known index (before ++ [w]) rest

/-- The ids of the workflows of a document. -/
def workflowIds (d : Document) : List String :=
  (d.workflows.map (·.workflowId)).filter fun id => !isBlankString id

/-- Check the workflows of a document. -/
def workflows (index : OperationIndex) (d : Document) : List Issue :=
  workflowsAfter (workflowIds d) index [] d.workflows

/-- Check a whole document. -/
def document (index : OperationIndex) (d : Document) : List Issue :=
  header d ++ sources d ++ workflows index d

/-- What a check of a document shows. -/
def findings (index : OperationIndex) (d : Document) : List Finding :=
  (document index d).map Issue.finding

end ApiWorkflow.Check
