import ApiWorkflow.Proofs.Check.Acceptance
import ApiWorkflow.Proofs.Check.Severity

/-! # Blanks around the ids of workflows and steps

Whether an id is given and whether it is given twice is told without the blanks around it.
A reference to an id has no blanks, and is compared with the ids as they are written. So a
document may have an error that goes away with the blanks: it refers to an id that is only
declared with blanks around it. Nothing else depends on them.
-/

namespace ApiWorkflow

open Text

/-! ## Ids without blanks around them -/

def Step.trimId (s : Step) : Step :=
  { s with stepId := trimmed s.stepId }

def Workflow.trimIds (w : Workflow) : Workflow :=
  { w with workflowId := trimmed w.workflowId, steps := w.steps.map Step.trimId }

/-- The document with the blanks around the ids of its workflows and steps dropped. -/
def Document.trimIds (d : Document) : Document :=
  { d with workflows := d.workflows.map Workflow.trimIds }

/-- An id is declared, but each time with blanks around it. -/
def OnlyPadded (declared : List String) (id : String) : Prop :=
  id ∉ declared ∧ ∃ given ∈ declared, trimmed given = id

/-- The step at a place mentions a step. -/
def Workflow.MentionsStep (w : Workflow) (i : Nat) (id : String) : Prop :=
  ∃ s, w.steps[i]? = some s ∧ s.Mentions .steps id

/-- A step of a document mentions a workflow. -/
def Document.MentionsWorkflow (d : Document) (id : String) : Prop :=
  ∃ w ∈ d.workflows, ∃ s ∈ w.steps, s.Mentions .workflows id

/-- The ids of the steps before a place. -/
def Workflow.idsBefore (w : Workflow) (i : Nat) : List String :=
  (w.steps.take i).map Step.stepId

/-- A step mentions an earlier step whose id is only declared with blanks around it. -/
def Workflow.MentionsPaddedStep (w : Workflow) : Prop :=
  ∃ i id, w.MentionsStep i id ∧ OnlyPadded (w.idsBefore i) id

/-- A step mentions a workflow whose id is only declared with blanks around it. -/
def Document.MentionsPaddedWorkflow (d : Document) : Prop :=
  ∃ id, d.MentionsWorkflow id ∧ OnlyPadded (d.workflows.map Workflow.workflowId) id

def Document.MentionsPadded (d : Document) : Prop :=
  (∃ w ∈ d.workflows, w.MentionsPaddedStep) ∨ d.MentionsPaddedWorkflow

/-! ## Mentioned ids have no blanks -/

/-- The numbers of the blank characters. -/
def blankCodes : List Nat :=
  [0x9, 0xA, 0xB, 0xC, 0xD, 0x20, 0x85, 0xA0, 0x1680] ++ List.range' 0x2000 11 ++
    [0x2028, 0x2029, 0x202F, 0x205F, 0x3000]

theorem toNat_mem_blankCodes {c : Char} (blank : isBlank c = true) : c.toNat ∈ blankCodes := by
  simp only [isBlank, Bool.or_eq_true, Bool.and_eq_true, decide_eq_true_eq, beq_iff_eq] at blank
  simp only [blankCodes, List.mem_append, List.mem_cons, List.not_mem_nil, or_false,
    List.mem_range'_1]
  omega

theorem isBlank_of_isNameChar {c : Char} (char : Expression.isNameChar c = true) :
    isBlank c = false := by
  have noBlank : ∀ n ∈ blankCodes, Expression.isNameChar (Char.ofNat n) = false := by decide
  rw [← Bool.not_eq_true]
  intro blank
  have no := noBlank c.toNat (toNat_mem_blankCodes blank)
  rw [Char.ofNat_toNat, char] at no
  cases no

theorem Step.Mentions.trimmed_eq {s : Step} {root : ExpressionRoot} {id : String}
    (mentions : s.Mentions root id) : trimmed id = id := by
  obtain ⟨-, -, -, -, -, chars, -⟩ := mentions
  rw [trimmed, trim_of_forall fun c member => isBlank_of_isNameChar (chars c member),
    String.ofList_toList]

/-- Ids without blanks are all declared exactly if they are all declared up to blanks and
    none of them is declared with blanks only. -/
theorem forall_mem_iff {mentioned : String → Prop} (declared : List String)
    (bare : ∀ id, mentioned id → trimmed id = id) :
    (∀ id, mentioned id → id ∈ declared) ↔
      (∀ id, mentioned id → id ∈ declared.map trimmed) ∧
        ¬∃ id, mentioned id ∧ OnlyPadded declared id := by
  constructor
  · intro all
    refine ⟨fun id mentions => ?_, ?_⟩
    · exact List.mem_map.mpr ⟨id, all id mentions, bare id mentions⟩
    · rintro ⟨id, mentions, missing, -⟩
      exact missing (all id mentions)
  · rintro ⟨all, bareOnly⟩ id mentions
    by_contra missing
    exact bareOnly ⟨id, mentions, missing, List.mem_map.mp (all id mentions)⟩

/-! ## References with and without the blanks -/

namespace Workflow

variable (w : Workflow)

theorem references_iff :
    (∀ (i : Nat) (s : Step), w.steps[i]? = some s → ∀ id, s.Mentions .steps id →
      ∃ (j : Nat) (b : Step), j < i ∧ w.steps[j]? = some b ∧ b.stepId = id) ↔
      ∀ i id, w.MentionsStep i id → id ∈ w.idsBefore i := by
  have earlier : ∀ (i : Nat) (id : String),
      id ∈ w.idsBefore i ↔ ∃ (j : Nat) (b : Step), j < i ∧ w.steps[j]? = some b ∧ b.stepId = id := by
    intro i id
    simp only [idsBefore, List.mem_map, Check.mem_take_iff]
    constructor
    · rintro ⟨b, ⟨j, before, here⟩, same⟩
      exact ⟨j, b, before, here, same⟩
    · rintro ⟨j, b, before, here, same⟩
      exact ⟨b, ⟨j, before, here⟩, same⟩
  simp only [earlier]
  constructor
  · rintro all i id ⟨s, here, mentions⟩
    exact all i s here id mentions
  · intro all i s here id mentions
    exact all i id ⟨s, here, mentions⟩

theorem mentionsStep_trimIds (i : Nat) (id : String) :
    w.trimIds.MentionsStep i id ↔ w.MentionsStep i id := by
  simp only [MentionsStep, trimIds, List.getElem?_map, Option.map_eq_some_iff]
  constructor
  · rintro ⟨-, ⟨s, here, rfl⟩, mentions⟩
    exact ⟨s, here, mentions⟩
  · rintro ⟨s, here, mentions⟩
    exact ⟨s.trimId, ⟨s, here, rfl⟩, mentions⟩

theorem idsBefore_trimIds (i : Nat) : w.trimIds.idsBefore i = (w.idsBefore i).map trimmed := by
  rw [idsBefore, idsBefore, trimIds, ← List.map_take, List.map_map, List.map_map]
  rfl

theorem references_iff_trimIds :
    (∀ i id, w.MentionsStep i id → id ∈ w.idsBefore i) ↔
      (∀ i id, w.trimIds.MentionsStep i id → id ∈ w.trimIds.idsBefore i) ∧
        ¬w.MentionsPaddedStep := by
  have bare : ∀ i id, w.MentionsStep i id → trimmed id = id := by
    rintro i id ⟨s, -, mentions⟩
    exact mentions.trimmed_eq
  simp only [mentionsStep_trimIds, idsBefore_trimIds, MentionsPaddedStep, not_exists (α := Nat)]
  rw [← forall_and]
  exact forall_congr' fun i => forall_mem_iff (w.idsBefore i) (bare i)

end Workflow

namespace Document

variable (d : Document)

theorem references_iff :
    (∀ w ∈ d.workflows, ∀ s ∈ w.steps, ∀ id, s.Mentions .workflows id →
      ∃ v ∈ d.workflows, v.workflowId = id) ↔
      ∀ id, d.MentionsWorkflow id → id ∈ d.workflows.map Workflow.workflowId := by
  simp only [← List.mem_map]
  constructor
  · rintro all id ⟨w, member, s, inSteps, mentions⟩
    exact all w member s inSteps id mentions
  · intro all w member s inSteps id mentions
    exact all id ⟨w, member, s, inSteps, mentions⟩

theorem mentionsWorkflow_trimIds (id : String) :
    d.trimIds.MentionsWorkflow id ↔ d.MentionsWorkflow id := by
  constructor
  · rintro ⟨_, member, _, inSteps, mentions⟩
    obtain ⟨w, inDocument, rfl⟩ := List.mem_map.mp member
    obtain ⟨s, inWorkflow, rfl⟩ := List.mem_map.mp inSteps
    exact ⟨w, inDocument, s, inWorkflow, mentions⟩
  · rintro ⟨w, member, s, inSteps, mentions⟩
    exact ⟨w.trimIds, List.mem_map_of_mem member, s.trimId, List.mem_map_of_mem inSteps, mentions⟩

theorem workflowIds_trimIds :
    d.trimIds.workflows.map Workflow.workflowId =
      (d.workflows.map Workflow.workflowId).map trimmed := by
  rw [trimIds, List.map_map, List.map_map]
  rfl

theorem references_iff_trimIds :
    (∀ id, d.MentionsWorkflow id → id ∈ d.workflows.map Workflow.workflowId) ↔
      (∀ id, d.trimIds.MentionsWorkflow id → id ∈ d.trimIds.workflows.map Workflow.workflowId) ∧
        ¬d.MentionsPaddedWorkflow := by
  simp only [mentionsWorkflow_trimIds, workflowIds_trimIds]
  apply forall_mem_iff
  rintro id ⟨w, -, s, -, mentions⟩
  exact mentions.trimmed_eq

end Document

/-! ## Documents with and without the blanks -/

theorem Workflow.wellFormed_iff_trimIds (w : Workflow) :
    w.WellFormed ↔ w.trimIds.WellFormed ∧ ¬w.MentionsPaddedStep := by
  have ids : (∀ s ∈ w.trimIds.steps, isBlankString s.stepId = false) ↔
      ∀ s ∈ w.steps, isBlankString s.stepId = false := by
    simp only [trimIds, List.forall_mem_map, Step.trimId, isBlankString_trimmed]
  have distinct : (w.trimIds.steps.map fun s => trimmed s.stepId) =
      w.steps.map fun s => trimmed s.stepId := by
    simp only [trimIds, List.map_map, Function.comp_def, Step.trimId, trimmed_trimmed]
  have targets : (∀ s ∈ w.trimIds.steps, ∃! kind, s.names kind = true) ↔
      ∀ s ∈ w.steps, ∃! kind, s.names kind = true := by
    have same : ∀ (s : Step) (kind : TargetKind), s.trimId.names kind = s.names kind := by
      intro s kind
      cases kind <;> rfl
    simp only [trimIds, List.forall_mem_map, same]
  have nonempty : w.trimIds.steps ≠ [] ↔ w.steps ≠ [] := by
    simp only [trimIds, ne_eq, List.map_eq_nil_iff]
  constructor
  · intro wellFormed
    obtain ⟨back, bareOnly⟩ :=
      w.references_iff_trimIds.mp (w.references_iff.mp wellFormed.references)
    exact ⟨⟨nonempty.mpr wellFormed.steps, ids.mpr wellFormed.ids, distinct ▸ wellFormed.distinct,
      targets.mpr wellFormed.targets, w.trimIds.references_iff.mpr back⟩, bareOnly⟩
  · rintro ⟨wellFormed, bareOnly⟩
    have back := w.references_iff_trimIds.mpr
      ⟨w.trimIds.references_iff.mp wellFormed.references, bareOnly⟩
    exact ⟨nonempty.mp wellFormed.steps, ids.mp wellFormed.ids, distinct ▸ wellFormed.distinct,
      targets.mp wellFormed.targets, w.references_iff.mpr back⟩

theorem Document.wellFormed_iff_trimIds (d : Document) :
    d.WellFormed ↔ d.trimIds.WellFormed ∧ ¬d.MentionsPadded := by
  have ids : (∀ w ∈ d.trimIds.workflows, isBlankString w.workflowId = false) ↔
      ∀ w ∈ d.workflows, isBlankString w.workflowId = false := by
    simp only [trimIds, List.forall_mem_map, Workflow.trimIds, isBlankString_trimmed]
  have distinct : (d.trimIds.workflows.map fun w => trimmed w.workflowId) =
      d.workflows.map fun w => trimmed w.workflowId := by
    simp only [trimIds, List.map_map, Function.comp_def, Workflow.trimIds, trimmed_trimmed]
  have workflow : (∀ w ∈ d.workflows, w.WellFormed) ↔
      (∀ w ∈ d.trimIds.workflows, w.WellFormed) ∧
        ¬∃ w ∈ d.workflows, w.MentionsPaddedStep := by
    simp only [trimIds, List.forall_mem_map, not_exists, not_and]
    rw [← forall₂_and]
    exact forall₂_congr fun w _ => w.wellFormed_iff_trimIds
  have nonempty : d.trimIds.workflows ≠ [] ↔ d.workflows ≠ [] := by
    simp only [trimIds, ne_eq, List.map_eq_nil_iff]
  rw [MentionsPadded, not_or]
  constructor
  · intro wellFormed
    obtain ⟨each, noStep⟩ := workflow.mp wellFormed.workflow
    obtain ⟨known, noWorkflow⟩ :=
      d.references_iff_trimIds.mp (d.references_iff.mp wellFormed.references)
    exact ⟨⟨wellFormed.version, wellFormed.title, wellFormed.infoVersion, wellFormed.sources,
      wellFormed.source, nonempty.mpr wellFormed.workflows, ids.mpr wellFormed.ids,
      distinct ▸ wellFormed.distinct, each, d.trimIds.references_iff.mpr known⟩, noStep, noWorkflow⟩
  · rintro ⟨wellFormed, noStep, noWorkflow⟩
    have each := workflow.mpr ⟨wellFormed.workflow, noStep⟩
    have known := d.references_iff_trimIds.mpr
      ⟨d.trimIds.references_iff.mp wellFormed.references, noWorkflow⟩
    exact ⟨wellFormed.version, wellFormed.title, wellFormed.infoVersion, wellFormed.sources,
      wellFormed.source, nonempty.mp wellFormed.workflows, ids.mp wellFormed.ids,
      distinct ▸ wellFormed.distinct, each, d.references_iff.mpr known⟩

namespace Check

theorem exists_error_iff (index : OperationIndex) (d : Document) :
    (∃ finding ∈ findings index d, finding.isError = true) ↔ ¬d.WellFormed := by
  have errors := filter_findings .error index d
  rw [filter_error_document (rfl : ({} : OperationIndex).size = 0)] at errors
  rw [← document_eq_nil_iff (rfl : ({} : OperationIndex).size = 0), ← List.map_eq_nil_iff, ← errors,
    List.filter_eq_nil_iff]
  simp only [not_forall, not_not, exists_prop, Finding.isError]

/-- A document has an error exactly if it has one without the blanks around its ids, or
    mentions an id that is only declared with blanks. -/
theorem exists_error_iff_trimIds (index : OperationIndex) (d : Document) :
    (∃ finding ∈ findings index d, finding.isError = true) ↔
      (∃ finding ∈ findings index d.trimIds, finding.isError = true) ∨ d.MentionsPadded := by
  rw [exists_error_iff, exists_error_iff, d.wellFormed_iff_trimIds, not_and_or, not_not]

/-- A step with a blank behind its id is not the one that the next step mentions. -/
theorem error_goes_with_blank :
    let create : Step := { stepId := "create ", operationId := some "createOrder" }
    let confirm : Step :=
      { stepId := "confirm", operationId := some "confirmOrder"
        parameters := [{ value := .string "$steps.create.outputs.id" }] }
    let d : Document :=
      { arazzo := "1.0.0", info := { title := "Orders", version := "1" }
        sourceDescriptions := [{ name := "api", url := "api.json" }]
        workflows := [{ workflowId := "orders", steps := [create, confirm] }] }
    ¬((∃ finding ∈ findings {} d, finding.isError = true) ↔
      ∃ finding ∈ findings {} d.trimIds, finding.isError = true) := by
  decide +kernel

end Check

end ApiWorkflow
