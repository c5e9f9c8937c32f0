import ApiWorkflow.Check.Workflows

/-! # Passes over steps and workflows

Steps and workflows are checked one after another, each with those before it at hand.
Both passes are one function of the check that is made at each place, so what a pass
finds is known from what is found at each position.
-/

namespace ApiWorkflow.Check

open Text

variable {α β : Type}

/-- What a check finds at each item of a list that follows others. -/
def eachAfter (check : List α → α → List β) : List α → List α → List β
  | _, [] => []
  | before, x :: rest => check before x ++ eachAfter check (before ++ [x]) rest

theorem steps_eq_eachAfter (known : List String) (index : OperationIndex) (w : Workflow)
    (before rest : List Step) :
    steps known index w before rest = eachAfter (step known index w) before rest := by
  induction rest generalizing before with
  | nil => rfl
  | cons s rest ih => rw [steps, eachAfter, ih]

theorem workflowsAfter_eq_eachAfter (known : List String) (index : OperationIndex)
    (before rest : List Workflow) :
    workflowsAfter known index before rest = eachAfter (workflow known index) before rest := by
  induction rest generalizing before with
  | nil => rfl
  | cons w rest ih => rw [workflowsAfter, eachAfter, ih]

theorem eachAfter_eq_nil_iff {check : List α → α → List β} {before rest : List α} :
    eachAfter check before rest = [] ↔
      ∀ i x, rest[i]? = some x → check (before ++ rest.take i) x = [] := by
  induction rest generalizing before with
  | nil => simp [eachAfter]
  | cons y rest ih =>
    rw [eachAfter, List.append_eq_nil_iff, ih]
    constructor
    · rintro ⟨first, later⟩ i x here
      cases i with
      | zero => cases here; simpa using first
      | succ i => simpa using later i x here
    · intro all
      refine ⟨by simpa using all 0 y rfl, ?_⟩
      intro i x here
      simpa using all (i + 1) x here

theorem mem_eachAfter {check : List α → α → List β} {before rest : List α} {found : β}
    (member : found ∈ eachAfter check before rest) :
    ∃ seen x, x ∈ rest ∧ found ∈ check seen x := by
  induction rest generalizing before with
  | nil => cases member
  | cons x rest ih =>
    rcases List.mem_append.mp member with here | later
    · exact ⟨before, x, List.mem_cons_self, here⟩
    · obtain ⟨seen, y, inRest, found⟩ := ih later
      exact ⟨seen, y, List.mem_cons_of_mem x inRest, found⟩

theorem filter_eachAfter (p : β → Bool) (check : List α → α → List β) (before rest : List α) :
    (eachAfter check before rest).filter p =
      eachAfter (fun before x => (check before x).filter p) before rest := by
  induction rest generalizing before with
  | nil => rfl
  | cons x rest ih => rw [eachAfter, eachAfter, List.filter_append, ih]

theorem eachAfter_eq_flatMap (check : α → List β) (before rest : List α) :
    eachAfter (fun _ => check) before rest = rest.flatMap check := by
  induction rest generalizing before with
  | nil => rfl
  | cons x rest ih => rw [eachAfter, List.flatMap_cons, ih]

/-- The problems of a step but for its operation. -/
def structureProblems (known : List String) (w : Workflow) (before : List Step) (s : Step) :
    List Problem :=
  stepIdProblems w before s ++ targetProblems s ++
    (expressionsOf s).filterMap (expressionProblem? known w before s)

theorem step_eq (known : List String) (index : OperationIndex) (w : Workflow) (before : List Step)
    (s : Step) :
    step known index w before s =
      (structureProblems known w before s ++ operationProblems index s).map (⟨s.line, ·⟩) := by
  simp only [step, stepReferences, structureProblems, List.map_append, List.append_assoc]

theorem filter_at (f : Problem → Bool) (line : Nat) (problems : List Problem) :
    (problems.map (⟨line, ·⟩ : Problem → Issue)).filter (fun issue => f issue.problem) =
      (problems.filter f).map (⟨line, ·⟩) :=
  List.filter_map

theorem eq_of_mem_problemIf {condition : Bool} {problem p : Problem}
    (member : p ∈ problemIf condition problem) : p = problem := by
  unfold problemIf at member
  split at member
  · exact List.mem_singleton.mp member
  · cases member

theorem mem_targetProblems {s : Step} {p : Problem} (member : p ∈ targetProblems s) :
    p = .noTarget (trimmed s.stepId) ∨ p = .manyTargets (trimmed s.stepId) := by
  unfold targetProblems at member
  split at member
  · exact .inl (List.mem_singleton.mp member)
  · cases member
  · exact .inr (List.mem_singleton.mp member)

theorem mem_operationProblems {index : OperationIndex} {s : Step} {p : Problem}
    (member : p ∈ operationProblems index s) :
    ∃ id, p = .unknownOperation (OperationId.bare id) s.stepId := by
  unfold operationProblems at member
  split at member
  · cases member
  dsimp only at member
  split at member
  · cases member
  · exact ⟨_, eq_of_mem_problemIf member⟩

theorem eq_of_expressionProblem? {known : List String} {w : Workflow} {before : List Step}
    {s : Step} {e : Expression} {p : Problem}
    (found : expressionProblem? known w before s e = some p) :
    ∃ id, p = .stepNotBefore s.stepId id w.workflowId ∨ p = .unknownWorkflow s.stepId id := by
  unfold expressionProblem? at found
  split at found
  · cases found
  dsimp only at found
  split at found
  · split at found
    · cases found
    · exact ⟨_, .inl (Option.some.inj found).symm⟩
  · split at found
    · cases found
    · exact ⟨_, .inr (Option.some.inj found).symm⟩
  · cases found

theorem operationProblems_of_size {index : OperationIndex} (nothing : index.size = 0) (s : Step) :
    operationProblems index s = [] := by
  unfold operationProblems
  split
  · rfl
  dsimp only
  split
  · rfl
  · simp [problemIf, nothing]

end ApiWorkflow.Check
