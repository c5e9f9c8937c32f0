import ApiWorkflow.Proofs.Check.Acceptance
import ApiWorkflow.Proofs.Places

/-! # Ids that are given twice

Workflows and the steps of each workflow are checked by a pass that has those before at
hand. Of what the pass reports, the duplicate ids alone are picked out by their message.
There is one for each place whose id stands at an earlier place too, so an id is reported
once less than it is given.
-/

namespace ApiWorkflow

open Text

namespace Check

variable {α β γ : Type}

/-! ## What a pass lists -/

theorem map_eachAfter (f : β → γ) (check : List α → α → List β) (before rest : List α) :
    (eachAfter check before rest).map f =
      eachAfter (fun before x => (check before x).map f) before rest := by
  induction rest generalizing before with
  | nil => rfl
  | cons x rest ih => rw [eachAfter, eachAfter, List.map_append, ih]

/-- A pass that finds at most one thing at each item lists one for each place where it
    finds something. -/
theorem onePerPlace_eachAfter {check : List α → α → List β} {before rest : List α}
    {place : Nat → Prop} {due : Nat → β → Prop}
    (each : ∀ i x, rest[i]? = some x →
      (place i ∧ ∃ entry, due i entry ∧ check (before ++ rest.take i) x = [entry]) ∨
        ¬place i ∧ check (before ++ rest.take i) x = [])
    (inside : ∀ i, place i → i < rest.length) :
    OnePerPlace place due (eachAfter check before rest) := by
  induction rest generalizing before place due with
  | nil => exact onePerPlace_nil fun i here => absurd (inside i here) (Nat.not_lt_zero i)
  | cons y rest ih =>
    have later : OnePerPlace (fun i => place (i + 1)) (fun i => due (i + 1))
        (eachAfter check (before ++ [y]) rest) := by
      apply ih
      · intro i x there
        simpa using each (i + 1) x there
      · exact fun i there => Nat.lt_of_succ_lt_succ (inside (i + 1) there)
    rw [eachAfter]
    have first := each 0 y rfl
    rw [List.take_zero, List.append_nil] at first
    rcases first with ⟨here, entry, shown, found⟩ | ⟨other, found⟩
    · rw [found]
      exact later.cons here shown
    · rw [found]
      exact later.skip other

/-! ## Repeated ids -/

section Repeats

variable (id : α → String) (items : List α)

/-- The id at a place is given, and stands at an earlier place as well. -/
def RepeatsAt (i : Nat) : Prop :=
  ∃ x, items[i]? = some x ∧ isBlankString (id x) = false ∧
    ∃ j b, j < i ∧ items[j]? = some b ∧ trimmed (id b) = trimmed (id x)

/-- Some findings report the repeated ids of items: one at the line of each item whose id
    is repeated, so that an id that is given `n` times is reported `n - 1` times. -/
structure ReportsRepeats (line : α → Nat) (message : String → String) (found : List Finding) :
    Prop where
  each : OnePerPlace (RepeatsAt id items)
    (fun i finding => ∃ x, items[i]? = some x ∧
      finding = ⟨line x, 0, message (trimmed (id x)), .error⟩) found
  counts : ∀ x ∈ items, isBlankString (id x) = false →
    found.countP (·.message == message (trimmed (id x))) =
      items.countP (fun y => trimmed (id y) == trimmed (id x)) - 1

/-- An id is given and one of some items before has it. -/
def repeatsAfter (before : List α) (x : α) : Bool :=
  !isBlankString (id x) && before.any fun b => trimmed (id b) == trimmed (id x)

variable {id items}

theorem repeatsAt_iff {i : Nat} {x : α} (here : items[i]? = some x) :
    RepeatsAt id items i ↔ repeatsAfter id (items.take i) x = true := by
  simp only [RepeatsAt, here, Option.some.injEq, exists_eq_left', repeatsAfter, Bool.and_eq_true,
    Bool.not_eq_true', List.any_eq_true, beq_iff_eq, mem_take_iff]
  grind

/-- How often an id is reported: each time, if it is known from before, and else once less
    than it is given. -/
theorem countP_eachAfter {check : List α → α → List β} {p : β → Bool} {q : α → Bool}
    (each : ∀ before x, (check before x).countP p = if q x && before.any q then 1 else 0)
    (before rest : List α) :
    (eachAfter check before rest).countP p =
      if before.any q then rest.countP q else rest.countP q - 1 := by
  induction rest generalizing before with
  | nil => simp [eachAfter]
  | cons x rest ih =>
    rw [eachAfter, List.countP_append, each, ih, List.any_append, List.any_cons, List.any_nil,
      List.countP_cons]
    cases q x <;> cases before.any q <;> simp [Nat.add_comm]

theorem reportsRepeats_eachAfter (line : α → Nat) {message : String → String}
    (apart : Function.Injective message) (id : α → String) (items : List α) :
    ReportsRepeats id items line message
      (eachAfter (fun before x => if repeatsAfter id before x then
        [⟨line x, 0, message (trimmed (id x)), .error⟩] else []) [] items) := by
  constructor
  · apply onePerPlace_eachAfter
    · intro i x here
      rw [List.nil_append, repeatsAt_iff here]
      cases repeatsAfter id (items.take i) x with
      | true => exact .inl ⟨rfl, _, ⟨x, here, rfl⟩, rfl⟩
      | false => exact .inr ⟨Bool.false_ne_true, rfl⟩
    · rintro i ⟨x, here, -⟩
      exact (List.getElem?_eq_some_iff.mp here).1
  · intro x member given
    rw [countP_eachAfter (q := fun y => trimmed (id y) == trimmed (id x))]
    · rfl
    · intro before y
      by_cases same : trimmed (id y) = trimmed (id x)
      · have givenToo : isBlankString (id y) = false := by
          rw [← isEmpty_trimmed, same, isEmpty_trimmed, given]
        simp only [repeatsAfter, givenToo, same, beq_self_eq_true, Bool.not_false, Bool.true_and]
        split <;> simp
      · have other : (message (trimmed (id y)) == message (trimmed (id x))) = false :=
          beq_eq_false_iff_ne.mpr fun equal => same (apart equal)
        rw [beq_eq_false_iff_ne.mpr same, Bool.false_and, if_neg Bool.false_ne_true]
        split <;> simp [other]

end Repeats

end Check

/-! ## Duplicate ids among the problems -/

namespace Problem

/-- The message of a problem starts with a text. -/
def opensWith (start : String) (p : Problem) : Bool :=
  start.toList.isPrefixOf p.message.toList

def isRepeatedWorkflow : Problem → Bool
  | .duplicateWorkflow _ => true
  | _ => false

def isRepeatedStep : Problem → Bool
  | .duplicateStep .. => true
  | _ => false

theorem opensWith_duplicate (p : Problem) :
    p.opensWith "Duplicate workflowId" = p.isRepeatedWorkflow ∧
      p.opensWith "Duplicate stepId" = p.isRepeatedStep := by
  unfold opensWith
  delta Problem.message
  -- The first piece of each message tells, so the others are left as they are.
  cases p with
  | workflowIdMissing =>
    simp only [String.reduceToList, List.isPrefixOf_cons_cons, Char.reduceBEq, Bool.false_and,
      isRepeatedWorkflow, isRepeatedStep, and_self]
  | _ =>
    simp only [isRepeatedWorkflow, isRepeatedStep, String.append_assoc]
    rw [String.toList_append]
    simp only [String.reduceToList, List.cons_append, List.isPrefixOf_cons_cons, Char.reduceBEq,
      Bool.false_and, Bool.true_and, List.isPrefixOf_nil_left, and_self]

/-- A problem that is not about a repeated id. -/
def IsOther (p : Problem) : Prop :=
  p.isRepeatedWorkflow = false ∧ p.isRepeatedStep = false

end Problem

namespace Check

theorem filter_idProblems {α : Type} (id : α → String) (before : List α) (x : α)
    {missing duplicate : Problem} {f : Problem → Bool} (left : f missing = false)
    (kept : f duplicate = true) :
    (if (trimmed (id x)).isEmpty then [missing]
      else problemIf (before.any fun b => trimmed (id b) == trimmed (id x)) duplicate).filter f =
      if repeatsAfter id before x then [duplicate] else [] := by
  rw [isEmpty_trimmed, repeatsAfter]
  cases isBlankString (id x) with
  | true => simp [left]
  | false =>
    cases before.any fun b => trimmed (id b) == trimmed (id x) with
    | true => simp [problemIf, kept]
    | false => simp [problemIf]

theorem mem_idProblems {α : Type} (id : α → String) (before : List α) (x : α)
    (missing duplicate : Problem) {p : Problem}
    (member : p ∈ if (trimmed (id x)).isEmpty then [missing]
      else problemIf (before.any fun b => trimmed (id b) == trimmed (id x)) duplicate) :
    p = missing ∨ p = duplicate := by
  split at member
  · exact .inl (List.mem_singleton.mp member)
  · exact .inr (eq_of_mem_problemIf member)

theorem isOther_of_mem {known : List String} {index : OperationIndex} {w : Workflow}
    {before : List Step} {s : Step} {p : Problem}
    (member : p ∈ targetProblems s ++ ((expressionsOf s).filterMap
      (expressionProblem? known w before s) ++ operationProblems index s)) : p.IsOther := by
  rcases List.mem_append.mp member with inTargets | member
  · rcases mem_targetProblems inTargets with rfl | rfl
    · exact ⟨rfl, rfl⟩
    · exact ⟨rfl, rfl⟩
  rcases List.mem_append.mp member with inReferences | inOperations
  · obtain ⟨e, -, found⟩ := List.mem_filterMap.mp inReferences
    obtain ⟨id, rfl | rfl⟩ := eq_of_expressionProblem? found
    · exact ⟨rfl, rfl⟩
    · exact ⟨rfl, rfl⟩
  · obtain ⟨id, rfl⟩ := mem_operationProblems inOperations
    exact ⟨rfl, rfl⟩

theorem filter_step {f : Problem → Bool} (only : ∀ p : Problem, p.IsOther → f p = false)
    (known : List String) (index : OperationIndex) (w : Workflow) (before : List Step) (s : Step) :
    (step known index w before s).filter (fun issue => f issue.problem) =
      ((stepIdProblems w before s).filter f).map (⟨s.line, ·⟩) := by
  have rest : (targetProblems s ++ ((expressionsOf s).filterMap
      (expressionProblem? known w before s) ++ operationProblems index s)).filter f = [] := by
    rw [List.filter_eq_nil_iff]
    intro p member
    rw [only p (isOther_of_mem member)]
    exact Bool.false_ne_true
  rw [step_eq, filter_at, structureProblems, List.append_assoc, List.append_assoc,
    List.filter_append, rest, List.append_nil]

theorem filter_repeatedStep_steps (known : List String) (index : OperationIndex) (w : Workflow) :
    (steps known index w [] w.steps).filter (fun issue => issue.problem.isRepeatedStep) =
      eachAfter (fun before s => if repeatsAfter Step.stepId before s then
        [⟨s.line, .duplicateStep (trimmed s.stepId) w.workflowId⟩] else []) [] w.steps := by
  have each : ∀ before s, (step known index w before s).filter
      (fun issue => issue.problem.isRepeatedStep) =
        if repeatsAfter Step.stepId before s then
          [⟨s.line, .duplicateStep (trimmed s.stepId) w.workflowId⟩] else [] := by
    intro before s
    rw [filter_step fun p other => other.2, stepIdProblems,
      filter_idProblems Step.stepId before s rfl rfl]
    split <;> rfl
  rw [steps_eq_eachAfter, filter_eachAfter]
  simp only [each]

theorem filter_repeatedWorkflow_steps (known : List String) (index : OperationIndex)
    (w : Workflow) :
    (steps known index w [] w.steps).filter (fun issue => issue.problem.isRepeatedWorkflow) =
      [] := by
  have each : ∀ before s, (step known index w before s).filter
      (fun issue => issue.problem.isRepeatedWorkflow) = [] := by
    intro before s
    rw [filter_step fun p other => other.1, List.map_eq_nil_iff, List.filter_eq_nil_iff]
    intro p member
    unfold stepIdProblems at member
    rcases mem_idProblems Step.stepId before s _ _ member with rfl | rfl
    · exact Bool.false_ne_true
    · exact Bool.false_ne_true
  rw [steps_eq_eachAfter, filter_eachAfter]
  simp only [each]
  rw [eachAfter_eq_flatMap, List.flatMap_eq_nil_iff]
  exact fun _ _ => rfl

theorem filter_repeatedWorkflow_workflow (known : List String) (index : OperationIndex)
    (before : List Workflow) (w : Workflow) :
    (workflow known index before w).filter (fun issue => issue.problem.isRepeatedWorkflow) =
      if repeatsAfter Workflow.workflowId before w then
        [⟨w.line, .duplicateWorkflow (trimmed w.workflowId)⟩] else [] := by
  have noSteps : (problemIf w.steps.isEmpty (.noSteps (trimmed w.workflowId))).filter
      Problem.isRepeatedWorkflow = [] := by
    rw [List.filter_eq_nil_iff]
    intro p member
    rw [eq_of_mem_problemIf member]
    exact Bool.false_ne_true
  rw [workflow, List.filter_append, filter_repeatedWorkflow_steps, List.append_nil, filter_at,
    workflowProblems, List.filter_append, noSteps, List.append_nil, workflowIdProblems,
    filter_idProblems Workflow.workflowId before w rfl rfl]
  split <;> rfl

theorem filter_repeatedStep_workflow (known : List String) (index : OperationIndex)
    (before : List Workflow) (w : Workflow) :
    (workflow known index before w).filter (fun issue => issue.problem.isRepeatedStep) =
      (steps known index w [] w.steps).filter fun issue => issue.problem.isRepeatedStep := by
  have own : (workflowProblems before w).filter Problem.isRepeatedStep = [] := by
    rw [List.filter_eq_nil_iff]
    intro p member
    rcases List.mem_append.mp member with inId | inSteps
    · unfold workflowIdProblems at inId
      rcases mem_idProblems Workflow.workflowId before w _ _ inId with rfl | rfl
      · exact Bool.false_ne_true
      · exact Bool.false_ne_true
    · rw [eq_of_mem_problemIf inSteps]
      exact Bool.false_ne_true
  rw [workflow, List.filter_append, filter_at, own, List.map_nil, List.nil_append]

/-! ## Duplicate ids among the findings -/

/-- The findings of some issues whose message starts with a text. -/
def findingsOpening (start : String) (issues : List Issue) : List Finding :=
  (issues.map Issue.finding).filter fun finding => start.toList.isPrefixOf finding.message.toList

theorem findingsOpening_workflow (issues : List Issue) :
    findingsOpening "Duplicate workflowId" issues =
      (issues.filter fun issue => issue.problem.isRepeatedWorkflow).map Issue.finding := by
  simp only [← (Problem.opensWith_duplicate _).1]
  exact List.filter_map

theorem findingsOpening_step (issues : List Issue) :
    findingsOpening "Duplicate stepId" issues =
      (issues.filter fun issue => issue.problem.isRepeatedStep).map Issue.finding := by
  simp only [← (Problem.opensWith_duplicate _).2]
  exact List.filter_map

theorem reportsRepeats_workflows (index : OperationIndex) (d : Document) :
    ReportsRepeats Workflow.workflowId d.workflows Workflow.line
      (fun id => "Duplicate workflowId '" ++ id ++ "'")
      (findingsOpening "Duplicate workflowId" (workflows index d)) := by
  have apart : Function.Injective fun id => "Duplicate workflowId '" ++ id ++ "'" := by
    intro left right same
    simpa using same
  rw [findingsOpening_workflow, workflows, workflowsAfter_eq_eachAfter, filter_eachAfter]
  simp only [filter_repeatedWorkflow_workflow]
  rw [map_eachAfter]
  simp only [apply_ite (List.map Issue.finding), List.map_nil]
  exact reportsRepeats_eachAfter Workflow.line apart Workflow.workflowId d.workflows

theorem reportsRepeats_steps (known : List String) (index : OperationIndex) (w : Workflow) :
    ReportsRepeats Step.stepId w.steps Step.line
      (fun id => "Duplicate stepId '" ++ id ++ "' in workflow '" ++ w.workflowId ++ "'")
      (findingsOpening "Duplicate stepId" (steps known index w [] w.steps)) := by
  have apart : Function.Injective fun id =>
      "Duplicate stepId '" ++ id ++ "' in workflow '" ++ w.workflowId ++ "'" := by
    intro left right same
    simpa using same
  rw [findingsOpening_step, filter_repeatedStep_steps, map_eachAfter]
  simp only [apply_ite (List.map Issue.finding), List.map_nil]
  exact reportsRepeats_eachAfter Step.line apart Step.stepId w.steps

theorem findingsOpening_workflows_step (index : OperationIndex) (d : Document) :
    findingsOpening "Duplicate stepId" (workflows index d) = d.workflows.flatMap fun w =>
      findingsOpening "Duplicate stepId" (steps (workflowIds d) index w [] w.steps) := by
  simp only [findingsOpening_step]
  rw [workflows, workflowsAfter_eq_eachAfter, filter_eachAfter]
  simp only [filter_repeatedStep_workflow]
  rw [eachAfter_eq_flatMap, List.map_flatMap]

/-- The duplicates among the workflows are reported, one for each workflow whose id is that
    of an earlier one; the duplicates among steps are those of each workflow by itself. -/
theorem repeats_reported_exactly (index : OperationIndex) (d : Document) :
    ReportsRepeats Workflow.workflowId d.workflows Workflow.line
      (fun id => "Duplicate workflowId '" ++ id ++ "'")
      (findingsOpening "Duplicate workflowId" (workflows index d)) ∧
    (findingsOpening "Duplicate stepId" (workflows index d) = d.workflows.flatMap fun w =>
      findingsOpening "Duplicate stepId" (steps (workflowIds d) index w [] w.steps)) ∧
    ∀ w : Workflow, ReportsRepeats Step.stepId w.steps Step.line
      (fun id => "Duplicate stepId '" ++ id ++ "' in workflow '" ++ w.workflowId ++ "'")
      (findingsOpening "Duplicate stepId" (steps (workflowIds d) index w [] w.steps)) :=
  ⟨reportsRepeats_workflows index d, findingsOpening_workflows_step index d,
    reportsRepeats_steps (workflowIds d) index⟩

end Check

end ApiWorkflow
