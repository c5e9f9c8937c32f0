import ApiWorkflow.Proofs.Check.Pass
import ApiWorkflow.Proofs.Expression
import Mathlib.Logic.ExistsUnique

/-! # The documents that a check accepts

A check finds nothing exactly if the document is well formed, which is said here
without the passes, the steps seen so far and the scan of values. References between
the steps of an accepted workflow go back only.
-/

namespace ApiWorkflow

open Text

/-! ## Well-formed documents -/

/-- A source description with a name and a url, of a known kind if it gives one. -/
structure SourceDescription.WellFormed (s : SourceDescription) : Prop where
  name : isBlankString s.name = false
  url : isBlankString s.url = false
  kind : isBlankString s.kind = true ∨ trimmed s.kind ∈ sourceKinds

/-- What a step says in the field of a target. -/
def Step.field? (s : Step) : TargetKind → Option String
  | .operationId => s.operationId
  | .operationPath => s.operationPath
  | .workflowId => s.workflowId

def TargetKind.all : List TargetKind :=
  [.operationId, .operationPath, .workflowId]

/-- A step names something to run in a field. -/
def Step.names (s : Step) (kind : TargetKind) : Bool :=
  (s.field? kind).any fun name => !isBlankString name

/-- The text of a parameter mentions an id behind a keyword. -/
def Step.Mentions (s : Step) (root : ExpressionRoot) (id : String) : Prop :=
  ∃ parameter ∈ s.parameters, ∃ value, parameter.value = .string value ∧
    Expression.Mentions root value.toList id.toList

/-- Steps with ids of their own that each run one thing and mention steps before them. -/
structure Workflow.WellFormed (w : Workflow) : Prop where
  steps : w.steps ≠ []
  ids : ∀ s ∈ w.steps, isBlankString s.stepId = false
  distinct : (w.steps.map fun s => trimmed s.stepId).Nodup
  targets : ∀ s ∈ w.steps, ∃! kind, s.names kind = true
  references : ∀ (i : Nat) (s : Step), w.steps[i]? = some s → ∀ id, s.Mentions .steps id →
    ∃ (j : Nat) (b : Step), j < i ∧ w.steps[j]? = some b ∧ b.stepId = id

structure Document.WellFormed (d : Document) : Prop where
  version : trimmed d.arazzo ∈ supportedVersions
  title : isBlankString d.info.title = false
  infoVersion : isBlankString d.info.version = false
  sources : d.sourceDescriptions ≠ []
  source : ∀ s ∈ d.sourceDescriptions, s.WellFormed
  workflows : d.workflows ≠ []
  ids : ∀ w ∈ d.workflows, isBlankString w.workflowId = false
  distinct : (d.workflows.map fun w => trimmed w.workflowId).Nodup
  workflow : ∀ w ∈ d.workflows, w.WellFormed
  references : ∀ w ∈ d.workflows, ∀ s ∈ w.steps, ∀ id, s.Mentions .workflows id →
    ∃ v ∈ d.workflows, v.workflowId = id

namespace Check

/-! ## The top of a document -/

@[simp]
theorem problemIf_eq_nil_iff {condition : Bool} {problem : Problem} :
    problemIf condition problem = [] ↔ condition = false := by
  cases condition <;> simp [problemIf]

@[simp]
theorem isEmpty_trimmed (s : String) : (trimmed s).isEmpty = isBlankString s := by
  rw [Bool.eq_iff_iff, String.isEmpty_iff, trimmed, String.ofList_eq_empty_iff, isBlankString,
    isBlankText, List.isEmpty_iff]

theorem versionProblems_eq_nil_iff {version : String} :
    versionProblems version = [] ↔ trimmed version ∈ supportedVersions := by
  unfold versionProblems
  dsimp only
  split
  · rename_i empty
    have absent : trimmed version = "" := String.isEmpty_iff.mp empty
    simp [absent, supportedVersions]
  · simp

theorem headerProblems_eq_nil_iff {d : Document} :
    headerProblems d = [] ↔ trimmed d.arazzo ∈ supportedVersions ∧
      isBlankString d.info.title = false ∧ isBlankString d.info.version = false ∧
      d.sourceDescriptions ≠ [] ∧ d.workflows ≠ [] := by
  simp only [headerProblems, List.append_eq_nil_iff, versionProblems_eq_nil_iff,
    problemIf_eq_nil_iff, and_assoc, ne_eq, List.isEmpty_eq_false_iff]

theorem sourceProblems_eq_nil_iff {position : Nat} {s : SourceDescription} :
    sourceProblems position s = [] ↔ s.WellFormed := by
  have kinds : (!isBlankString s.kind && !sourceKinds.contains (trimmed s.kind)) = false ↔
      isBlankString s.kind = true ∨ trimmed s.kind ∈ sourceKinds := by
    cases isBlankString s.kind <;> simp
  simp only [sourceProblems, List.append_eq_nil_iff, problemIf_eq_nil_iff, isEmpty_trimmed, kinds]
  constructor
  · rintro ⟨⟨name, url⟩, kind⟩
    exact ⟨name, url, kind⟩
  · rintro ⟨name, url, kind⟩
    exact ⟨⟨name, url⟩, kind⟩

theorem sourcesProblems_eq_nil_iff {position : Nat} {sources : List SourceDescription} :
    sourcesProblems position sources = [] ↔ ∀ s ∈ sources, s.WellFormed := by
  induction sources generalizing position with
  | nil => simp [sourcesProblems]
  | cons s rest ih =>
    rw [sourcesProblems, List.append_eq_nil_iff, sourceProblems_eq_nil_iff, ih,
      List.forall_mem_cons]

/-! ## Ids -/

theorem idProblems_eq_nil_iff {α : Type} (id : α → String) (before : List α) (x : α)
    (missing duplicate : Problem) :
    (if (trimmed (id x)).isEmpty then [missing]
      else problemIf (before.any fun b => trimmed (id b) == trimmed (id x)) duplicate) = [] ↔
      isBlankString (id x) = false ∧ ∀ b ∈ before, trimmed (id b) ≠ trimmed (id x) := by
  rw [isEmpty_trimmed]
  split
  · rename_i blank
    simp [blank]
  · rename_i given
    simp [given]

theorem workflowIdProblems_eq_nil_iff {before : List Workflow} {w : Workflow} :
    workflowIdProblems before w = [] ↔ isBlankString w.workflowId = false ∧
      ∀ b ∈ before, trimmed b.workflowId ≠ trimmed w.workflowId := by
  unfold workflowIdProblems
  exact idProblems_eq_nil_iff Workflow.workflowId before w _ _

theorem stepIdProblems_eq_nil_iff {w : Workflow} {before : List Step} {s : Step} :
    stepIdProblems w before s = [] ↔ isBlankString s.stepId = false ∧
      ∀ b ∈ before, trimmed b.stepId ≠ trimmed s.stepId := by
  unfold stepIdProblems
  exact idProblems_eq_nil_iff Step.stepId before s _ _

theorem mem_take_iff {α : Type} {l : List α} {i : Nat} {b : α} :
    b ∈ l.take i ↔ ∃ j, j < i ∧ l[j]? = some b := by
  rw [List.mem_take_iff_getElem]
  constructor
  · rintro ⟨j, bound, rfl⟩
    exact ⟨j, by omega, List.getElem?_eq_getElem (by omega)⟩
  · rintro ⟨j, before, here⟩
    obtain ⟨bound, same⟩ := List.getElem?_eq_some_iff.mp here
    exact ⟨j, by omega, same⟩

theorem nodup_map_iff {α : Type} {value : α → String} {l : List α} :
    (l.map value).Nodup ↔ ∀ i x, l[i]? = some x → ∀ b ∈ l.take i, value b ≠ value x := by
  rw [List.nodup_iff_pairwise_ne, List.pairwise_map, List.pairwise_iff_getElem]
  constructor
  · intro apart i x here b member
    obtain ⟨bound, rfl⟩ := List.getElem?_eq_some_iff.mp here
    obtain ⟨j, less, there⟩ := mem_take_iff.mp member
    obtain ⟨bound', rfl⟩ := List.getElem?_eq_some_iff.mp there
    exact apart j i bound' bound less
  · intro apart j i bound' bound less
    exact apart i _ (List.getElem?_eq_getElem bound) _
      (mem_take_iff.mpr ⟨j, less, List.getElem?_eq_getElem bound'⟩)

/-! ## Targets -/

theorem length_targets (s : Step) : s.targets.length = TargetKind.all.countP s.names := by
  have fields : [(TargetKind.operationId, s.operationId), (.operationPath, s.operationPath),
      (.workflowId, s.workflowId)] = TargetKind.all.map fun kind => (kind, s.field? kind) := rfl
  rw [Step.targets, fields, List.length_filterMap_eq_countP, List.countP_map]
  apply List.countP_congr
  intro kind _
  rw [Step.names]
  dsimp only [Function.comp_apply]
  cases s.field? kind with
  | none => simp
  | some name => cases blank : isBlankString name <;> simp [blank]

theorem countP_all_eq_one_iff (names : TargetKind → Bool) :
    TargetKind.all.countP names = 1 ↔ ∃! kind, names kind = true := by
  have mem_named : ∀ kind, kind ∈ TargetKind.all.filter names ↔ names kind = true := by
    intro kind
    rw [List.mem_filter]
    cases kind <;> simp [TargetKind.all]
  rw [List.countP_eq_length_filter, List.length_eq_one_iff]
  constructor
  · rintro ⟨kind, single⟩
    rw [single] at mem_named
    refine ⟨kind, (mem_named kind).mp (List.mem_singleton_self kind), ?_⟩
    intro other named
    exact List.mem_singleton.mp ((mem_named other).mpr named)
  · rintro ⟨kind, named, only⟩
    have same : names = fun other => other == kind := by
      funext other
      rw [Bool.eq_iff_iff, beq_iff_eq]
      exact ⟨only other, fun same => same ▸ named⟩
    refine ⟨kind, ?_⟩
    rw [same]
    cases kind <;> rfl

theorem targetProblems_eq_nil_iff {s : Step} :
    targetProblems s = [] ↔ ∃! kind, s.names kind = true := by
  rw [← countP_all_eq_one_iff, ← length_targets, List.length_eq_one_iff]
  unfold targetProblems
  split
  · rename_i nothing
    simp [nothing]
  · rename_i target single
    simp [single]
  · rename_i many
    simpa using many

/-! ## References -/

theorem mentions_iff_expressionsOf {s : Step} {root : ExpressionRoot} {id : String} :
    s.Mentions root id ↔ ∃ e ∈ expressionsOf s, e.root = root ∧ e.target? = some id.toList := by
  simp only [Step.Mentions, Expression.mentions_iff, expressionsOf, List.mem_flatMap]
  constructor
  · rintro ⟨parameter, member, value, text, e, inScan, parts⟩
    refine ⟨e, ⟨parameter, member, ?_⟩, parts⟩
    rw [text]
    exact inScan
  · rintro ⟨e, ⟨parameter, member, inScan⟩, parts⟩
    cases text : parameter.value with
    | string value =>
      rw [text] at inScan
      exact ⟨parameter, member, value, text, e, inScan, parts⟩
    | null | bool _ | int _ | double _ | array _ | object _ =>
      rw [text] at inScan
      cases inScan

theorem expressionProblem?_eq_none_iff {known : List String} {w : Workflow} {before : List Step}
    {s : Step} {e : Expression} :
    expressionProblem? known w before s e = none ↔ ∀ id : String, e.target? = some id.toList →
      (e.root = .steps → ∃ b ∈ before, b.stepId = id) ∧ (e.root = .workflows → id ∈ known) := by
  unfold expressionProblem?
  cases target : e.target? with
  | none => simp
  | some name =>
    have read : ∀ id : String, some name = some id.toList ↔ id = String.ofList name := by
      intro id
      rw [Option.some_inj, ← String.toList_inj, String.toList_ofList, eq_comm]
    simp only [read, forall_eq]
    cases e.root <;> simp [hasStep]

theorem references_eq_nil_iff {known : List String} {w : Workflow} {before : List Step}
    {s : Step} :
    (expressionsOf s).filterMap (expressionProblem? known w before s) = [] ↔
      (∀ id, s.Mentions .steps id → ∃ b ∈ before, b.stepId = id) ∧
      ∀ id, s.Mentions .workflows id → id ∈ known := by
  simp only [List.filterMap_eq_nil_iff, expressionProblem?_eq_none_iff, mentions_iff_expressionsOf]
  constructor
  · intro all
    constructor
    · rintro id ⟨e, member, root, target⟩
      exact (all e member id target).1 root
    · rintro id ⟨e, member, root, target⟩
      exact (all e member id target).2 root
  · rintro ⟨steps, workflows⟩ e member id target
    exact ⟨fun root => steps id ⟨e, member, root, target⟩,
      fun root => workflows id ⟨e, member, root, target⟩⟩

theorem mem_workflowIds_iff {d : Document} {id : String} :
    id ∈ workflowIds d ↔ (∃ w ∈ d.workflows, w.workflowId = id) ∧ isBlankString id = false := by
  simp [workflowIds]

/-! ## Steps and workflows -/

variable {index : OperationIndex} {known : List String}

theorem step_eq_nil_iff (nothing : index.size = 0) {w : Workflow} {before : List Step} {s : Step} :
    step known index w before s = [] ↔
      (isBlankString s.stepId = false ∧ ∀ b ∈ before, trimmed b.stepId ≠ trimmed s.stepId) ∧
      (∃! kind, s.names kind = true) ∧
      (∀ id, s.Mentions .steps id → ∃ b ∈ before, b.stepId = id) ∧
      ∀ id, s.Mentions .workflows id → id ∈ known := by
  rw [step_eq, List.map_eq_nil_iff, operationProblems_of_size nothing, List.append_nil,
    structureProblems, List.append_eq_nil_iff, List.append_eq_nil_iff, stepIdProblems_eq_nil_iff,
    targetProblems_eq_nil_iff, references_eq_nil_iff, and_assoc]

theorem steps_eq_nil_iff (nothing : index.size = 0) {w : Workflow} (nonempty : w.steps ≠ []) :
    steps known index w [] w.steps = [] ↔ w.WellFormed ∧
      ∀ s ∈ w.steps, ∀ id, s.Mentions .workflows id → id ∈ known := by
  rw [steps_eq_eachAfter, eachAfter_eq_nil_iff]
  simp only [List.nil_append, step_eq_nil_iff nothing]
  constructor
  · intro all
    have each : ∀ s ∈ w.steps, isBlankString s.stepId = false ∧ (∃! kind, s.names kind = true) ∧
        ∀ id, s.Mentions .workflows id → id ∈ known := by
      intro s member
      obtain ⟨i, here⟩ := List.mem_iff_getElem?.mp member
      obtain ⟨⟨given, -⟩, target, -, workflows⟩ := all i s here
      exact ⟨given, target, workflows⟩
    refine ⟨⟨nonempty, fun s member => (each s member).1, nodup_map_iff.mpr ?_,
      fun s member => (each s member).2.1, ?_⟩, fun s member => (each s member).2.2⟩
    · intro i s here
      exact (all i s here).1.2
    · intro i s here id mentions
      obtain ⟨b, member, same⟩ := (all i s here).2.2.1 id mentions
      obtain ⟨j, less, there⟩ := mem_take_iff.mp member
      exact ⟨j, b, less, there, same⟩
  · rintro ⟨wellFormed, workflows⟩ i s here
    have member : s ∈ w.steps := List.mem_of_getElem? here
    refine ⟨⟨wellFormed.ids s member, nodup_map_iff.mp wellFormed.distinct i s here⟩,
      wellFormed.targets s member, ?_, workflows s member⟩
    intro id mentions
    obtain ⟨j, b, less, there, same⟩ := wellFormed.references i s here id mentions
    exact ⟨b, mem_take_iff.mpr ⟨j, less, there⟩, same⟩

theorem workflow_eq_nil_iff (nothing : index.size = 0) {before : List Workflow} {w : Workflow} :
    workflow known index before w = [] ↔
      (isBlankString w.workflowId = false ∧
        ∀ b ∈ before, trimmed b.workflowId ≠ trimmed w.workflowId) ∧
      w.WellFormed ∧ ∀ s ∈ w.steps, ∀ id, s.Mentions .workflows id → id ∈ known := by
  rw [workflow, List.append_eq_nil_iff, List.map_eq_nil_iff, workflowProblems,
    List.append_eq_nil_iff, workflowIdProblems_eq_nil_iff, problemIf_eq_nil_iff,
    List.isEmpty_eq_false_iff, and_assoc]
  apply and_congr_right
  intro _
  constructor
  · rintro ⟨nonempty, clean⟩
    exact (steps_eq_nil_iff nothing nonempty).mp clean
  · rintro ⟨wellFormed, workflows⟩
    have nonempty := wellFormed.steps
    exact ⟨nonempty, (steps_eq_nil_iff nothing nonempty).mpr ⟨wellFormed, workflows⟩⟩

theorem workflows_eq_nil_iff (nothing : index.size = 0) {d : Document} :
    workflows index d = [] ↔ (∀ w ∈ d.workflows, isBlankString w.workflowId = false) ∧
      (d.workflows.map fun w => trimmed w.workflowId).Nodup ∧
      (∀ w ∈ d.workflows, w.WellFormed) ∧
      ∀ w ∈ d.workflows, ∀ s ∈ w.steps, ∀ id, s.Mentions .workflows id →
        ∃ v ∈ d.workflows, v.workflowId = id := by
  rw [workflows, workflowsAfter_eq_eachAfter, eachAfter_eq_nil_iff]
  simp only [List.nil_append, workflow_eq_nil_iff nothing, mem_workflowIds_iff]
  constructor
  · intro all
    have each : ∀ w ∈ d.workflows, ∃ i, d.workflows[i]? = some w :=
      fun w member => List.mem_iff_getElem?.mp member
    refine ⟨?_, nodup_map_iff.mpr fun i w here => (all i w here).1.2, ?_, ?_⟩
    · intro w member
      obtain ⟨i, here⟩ := each w member
      exact (all i w here).1.1
    · intro w member
      obtain ⟨i, here⟩ := each w member
      exact (all i w here).2.1
    · intro w member s inSteps id mentions
      obtain ⟨i, here⟩ := each w member
      exact ((all i w here).2.2 s inSteps id mentions).1
  · rintro ⟨given, distinct, wellFormed, references⟩ i w here
    have member : w ∈ d.workflows := List.mem_of_getElem? here
    refine ⟨⟨given w member, nodup_map_iff.mp distinct i w here⟩, wellFormed w member, ?_⟩
    intro s inSteps id mentions
    obtain ⟨v, isWorkflow, same⟩ := references w member s inSteps id mentions
    exact ⟨⟨v, isWorkflow, same⟩, same ▸ given v isWorkflow⟩

theorem document_eq_nil_iff (nothing : index.size = 0) {d : Document} :
    document index d = [] ↔ d.WellFormed := by
  rw [document, List.append_eq_nil_iff, List.append_eq_nil_iff, header, sources, atTop, atTop,
    List.map_eq_nil_iff, List.map_eq_nil_iff, headerProblems_eq_nil_iff,
    sourcesProblems_eq_nil_iff, workflows_eq_nil_iff nothing]
  constructor
  · rintro ⟨⟨⟨version, title, infoVersion, sources, workflows⟩, source⟩, ids, distinct, workflow,
      references⟩
    exact ⟨version, title, infoVersion, sources, source, workflows, ids, distinct, workflow,
      references⟩
  · rintro ⟨version, title, infoVersion, sources, source, workflows, ids, distinct, workflow,
      references⟩
    exact ⟨⟨⟨version, title, infoVersion, sources, workflows⟩, source⟩, ids, distinct, workflow,
      references⟩

instance (d : Document) : Decidable d.WellFormed :=
  decidable_of_iff (document {} d = []) (document_eq_nil_iff rfl)

/-- An id with a blank behind it is not the one that a later step mentions. -/
example :
    let create : Step := { stepId := "create ", operationId := some "createOrder" }
    let confirm : Step :=
      { stepId := "confirm", operationId := some "confirmOrder"
        parameters := [{ value := .string "$steps.create.outputs.id" }] }
    let d : Document :=
      { arazzo := "1.0.0", info := { title := "Orders", version := "1" }
        sourceDescriptions := [{ name := "api", url := "api.json" }]
        workflows := [{ workflowId := "orders", steps := [create, confirm] }] }
    ¬d.WellFormed := by
  decide +kernel

end Check

/-! ## References go back -/

/-- The step at a position mentions the step at another one. -/
def Workflow.Refers (w : Workflow) (i j : Nat) : Prop :=
  ∃ s b : Step, w.steps[i]? = some s ∧ w.steps[j]? = some b ∧ s.Mentions .steps b.stepId

theorem Workflow.WellFormed.lt_of_refers {w : Workflow} (wellFormed : w.WellFormed) {i j : Nat}
    (refers : w.Refers i j) : j < i := by
  obtain ⟨s, b, here, there, mentions⟩ := refers
  obtain ⟨k, c, before, found, same⟩ := wellFormed.references i s here b.stepId mentions
  -- the id that is mentioned belongs to one step only
  have position : k = j := by
    apply (List.getElem?_inj _ wellFormed.distinct).mp
    · simp [found, there, same]
    · rw [List.length_map]
      exact (List.getElem?_eq_some_iff.mp found).1
  omega

theorem Workflow.WellFormed.lt_of_transGen {w : Workflow} (wellFormed : w.WellFormed) {i j : Nat}
    (refers : Relation.TransGen w.Refers i j) : j < i := by
  induction refers with
  | single refers => exact wellFormed.lt_of_refers refers
  | tail _ refers ih => exact Nat.lt_trans (wellFormed.lt_of_refers refers) ih

namespace Check

/-- Without operations to look up, a check finds nothing exactly in well-formed
    documents; no step of an accepted workflow depends on itself or on a later one. -/
theorem findings_eq_nil_iff_wellFormed (d : Document) {index : OperationIndex}
    (nothing : index.size = 0) :
    (findings index d = [] ↔ d.WellFormed) ∧
      (findings index d = [] → ∀ w ∈ d.workflows, ∀ i j : Nat,
        Relation.TransGen w.Refers i j → j < i) := by
  have accepted : findings index d = [] ↔ d.WellFormed := by
    rw [findings, List.map_eq_nil_iff, document_eq_nil_iff nothing]
  refine ⟨accepted, ?_⟩
  intro clean w member i j refers
  exact ((accepted.mp clean).workflow w member).lt_of_transGen refers

/-- An index that has read a description without operations, and a document whose
    second step mentions the first one and the workflow. -/
theorem findings_eq_nil_of_orders :
    let index : OperationIndex := { descriptions := [("file:///api.json", {})] }
    let create : Step := { stepId := "create", operationId := some "createOrder" }
    let confirm : Step :=
      { stepId := " confirm", operationId := some " ", operationPath := some "#/paths/~1orders"
        parameters := [{ value := .string "{$steps.create.outputs.id} of $workflows.orders" }] }
    let d : Document :=
      { arazzo := "1.0.1 ", info := { title := "Orders", version := "1" }
        sourceDescriptions := [{ name := "api", url := "api.json" }]
        workflows := [{ workflowId := "orders", steps := [create, confirm] }] }
    index.size = 0 ∧ findings index d = [] ∧ d.WellFormed := by
  intro index create confirm d
  have nothing : index.size = 0 := rfl
  have clean : findings index d = [] := by decide +kernel
  exact ⟨nothing, clean, (findings_eq_nil_iff_wellFormed d nothing).1.mp clean⟩

end Check

end ApiWorkflow
