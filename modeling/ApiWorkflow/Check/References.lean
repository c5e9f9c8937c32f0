import ApiWorkflow.Check.Problem
import ApiWorkflow.Expression

/-! # Checking the references of steps

Expressions in the parameters of a step may refer to steps that come before it in
its workflow, and to the workflows of the document.
-/

namespace ApiWorkflow.Check

/-- The expressions in the parameters of a step. -/
def expressionsOf (step : Step) : List Expression :=
  step.parameters.flatMap fun parameter =>
    match parameter.value.text? with
    | some value => Expression.scan value.toList
    | none => []

/-- Whether one of some steps has an id. -/
def hasStep (steps : List Step) (id : String) : Bool :=
  steps.any (·.stepId == id)

/-- The problem of an expression in a step, where `known` are the ids of workflows
    and `before` the steps that come before. -/
def expressionProblem? (known : List String) (workflow : Workflow) (before : List Step)
    (step : Step) (e : Expression) : Option Problem :=
  match e.target? with
  | none => none
  | some target =>
    let target := String.ofList target
    match e.root with
    | .steps =>
      if hasStep before target then none
      else some (.stepNotBefore step.stepId target workflow.workflowId)
    | .workflows =>
      if known.contains target then none else some (.unknownWorkflow step.stepId target)
    | _ => none

/-- Check the references of a step. -/
def stepReferences (known : List String) (workflow : Workflow) (before : List Step) (step : Step) :
    List Issue :=
  ((expressionsOf step).filterMap (expressionProblem? known workflow before step)).map
    fun problem => ⟨step.line, problem⟩

/-- Check the references of steps that follow others. -/
def stepsReferences (known : List String) (workflow : Workflow) :
    List Step → List Step → List Issue
  | _, [] => []
  | before, step :: rest =>
    stepReferences known workflow before step ++
      stepsReferences known workflow (before ++ [step]) rest

/-- Check the references of all steps of a document. -/
def references (known : List String) (d : Document) : List Issue :=
  d.workflows.flatMap fun w => stepsReferences known w [] w.steps

end ApiWorkflow.Check
