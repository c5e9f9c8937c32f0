import ApiWorkflow.Proofs.Document.Text
import ApiWorkflow.Proofs.Source.Codec
import ApiWorkflow.Proofs.Yaml.Indentation

/-! # Documents that are written as outlines

An outline lists workflows with their steps, each on lines of its own. Main statement:
`Outline.decode_text`, the text of an outline is read as a document with these workflows
and steps.
-/

namespace ApiWorkflow

open Source Yaml

/-- The text of some lines, each with its end. -/
def Text.unlines (rows : List (List Char)) : List Char :=
  rows.flatMap (· ++ ['\n'])

@[simp]
theorem Text.unlines_nil : unlines [] = [] :=
  rfl

@[simp]
theorem Text.unlines_cons (row : List Char) (rows : List (List Char)) :
    unlines (row :: rows) = row ++ '\n' :: unlines rows := by
  simp [unlines]

theorem Text.unlines_flatMap {α : Type} (rows : α → List (List Char)) (values : List α) :
    unlines (values.flatMap rows) = values.flatMap fun a => unlines (rows a) := by
  simp [unlines, List.flatMap_assoc]

theorem Text.mem_unlines {rows : List (List Char)} {c : Char} (member : c ∈ unlines rows) :
    c = '\n' ∨ ∃ row ∈ rows, c ∈ row := by
  simp only [unlines, List.mem_flatMap, List.mem_append, List.mem_singleton] at member
  obtain ⟨row, among, here | rfl⟩ := member
  · exact .inr ⟨row, among, here⟩
  · exact .inl rfl

theorem Text.linesAfter_row {row : List Char} (noBreak : '\n' ∉ row) (held rest : List Char) :
    linesAfter held (row ++ '\n' :: rest) =
      (dropReturn (row.reverse ++ held)).reverse :: linesAfter [] rest := by
  induction row generalizing held with
  | nil => simp [linesAfter]
  | cons c cs ih =>
    obtain ⟨notHere, notLater⟩ := List.ne_and_not_mem_of_not_mem_cons noBreak
    rw [List.cons_append, linesAfter, if_neg (Ne.symm notHere), ih notLater]
    simp

theorem Text.dropReturn_eq_self {cs : List Char} (noReturn : '\r' ∉ cs) : dropReturn cs = cs := by
  unfold dropReturn
  split
  · simp at noReturn
  · rfl

/-- A word that can be written bare, and found again by the scan for ids. -/
@[mk_iff]
structure IsWord (word : String) : Prop where
  chars : ∀ c ∈ word.toList, Positions.isIdChar c = true ∧ isAllowed c = true
  bare : Bare word.toList

instance (word : String) : Decidable (IsWord word) :=
  decidable_of_iff (word.toList.all (fun c => Positions.isIdChar c && isAllowed c) = true ∧
    Bare word.toList) (by simp [isWord_iff])

theorem IsWord.nonempty {word : String} (isWord : IsWord word) : word.toList ≠ [] := by
  obtain ⟨c, cs, same, -⟩ := startsWord_eq_true isWord.bare.starts
  simp [same]

/-- A word that stands for itself and not for a number or the like. -/
@[mk_iff]
structure IsId (id : String) : Prop where
  word : IsWord id
  text : Scalar.ofPlain id.toList = .text id

instance (id : String) : Decidable (IsId id) :=
  decidable_of_iff _ (isId_iff id).symm

/-- A step with the operation that it runs. -/
structure StepOutline where
  id : String
  operation : String

namespace StepOutline

def rows (step : StepOutline) : List (List Char) :=
  ["      - stepId: ".toList ++ step.id.toList,
    "        operationId: ".toList ++ step.operation.toList]

@[mk_iff]
structure Valid (step : StepOutline) : Prop where
  id : IsId step.id
  operation : IsWord step.operation

instance (step : StepOutline) : Decidable step.Valid :=
  decidable_of_iff _ (valid_iff step).symm

def block (step : StepOutline) : Block :=
  .dict [("stepId", .scalar step.id), ("operationId", .scalar step.operation)]

end StepOutline

/-- A workflow with its steps. -/
structure WorkflowOutline where
  id : String
  steps : List StepOutline

namespace WorkflowOutline

def rows (workflow : WorkflowOutline) : List (List Char) :=
  ("  - workflowId: ".toList ++ workflow.id.toList) :: "    steps:".toList ::
    workflow.steps.flatMap StepOutline.rows

@[mk_iff]
structure Valid (workflow : WorkflowOutline) : Prop where
  id : IsId workflow.id
  steps : ∀ step ∈ workflow.steps, step.Valid

instance (workflow : WorkflowOutline) : Decidable workflow.Valid :=
  decidable_of_iff _ (valid_iff workflow).symm

def block (workflow : WorkflowOutline) : Block :=
  .dict [("workflowId", .scalar workflow.id),
    ("steps", .listing (workflow.steps.map StepOutline.block))]

end WorkflowOutline

namespace Outline

/-- The lines of an outline. -/
def rows (outlines : List WorkflowOutline) : List (List Char) :=
  "workflows:".toList :: outlines.flatMap WorkflowOutline.rows

/-- The text of an outline. -/
def text (outlines : List WorkflowOutline) : String :=
  String.ofList (Text.unlines (rows outlines))

def entries (outlines : List WorkflowOutline) : List (String × Block) :=
  [("workflows", .listing (outlines.map WorkflowOutline.block))]

/-! ## The tree of the text -/

open Spot

theorem itemized_steps {steps : List StepOutline} (valid : ∀ step ∈ steps, step.Valid)
    (indents : List Nat) :
    Itemized 6 indents (fun step => Text.unlines step.rows) StepOutline.block steps where
  dash := fun _ _ => ⟨_, rfl⟩
  reads := by
    intro step member rest closes
    obtain ⟨id, operation⟩ := valid step member
    have shape : Text.unlines step.rows ++ rest = List.replicate 6 ' ' ++
        '-' :: ' ' :: ("stepId".toList ++ ':' :: ' ' :: (step.id.toList ++ '\n' ::
          (List.replicate 8 ' ' ++ ("operationId".toList ++ ':' :: ' ' ::
            (step.operation.toList ++ '\n' :: rest))))) := by
      simp [StepOutline.rows]
    have tokens : Token.blockEntry :: step.block.tokens =
        [Token.blockEntry, .blockMappingStart] ++
        ([Token.key, .scalar .plain (String.ofList "stepId".toList), .value,
          .scalar .plain (String.ofList step.id.toList)] ++
        ([] ++ ([Token.key, .scalar .plain (String.ofList "operationId".toList), .value,
          .scalar .plain (String.ofList step.operation.toList)] ++ [Token.blockEnd]))) := by
      simp [StepOutline.block, Block.tokens, Block.entryTokens]
    rw [shape, tokens]
    have stepKey : IsKey "stepId".toList := by decide
    have operationKey : IsKey "operationId".toList := by decide
    have second : Outdented 8 (List.replicate 8 ' ' ++ ("operationId".toList ++ ':' :: ' ' ::
        (step.operation.toList ++ '\n' :: rest))) :=
      ⟨8, _, rfl, Nat.le_refl 8, operationKey.halts _ _⟩
    have third : Outdented 8 rest := (closes.mono (by decide)).outdented
    exact (reads_dictItem stepKey rfl).append <| (reads_pair stepKey id.word.bare second).append <|
      (reads_spaces 8 (operationKey.halts _ _) true).append <|
      (reads_pair operationKey operation.bare third).append <| reads_blockEnd closes (by decide)

theorem itemized_workflows {outlines : List WorkflowOutline}
    (valid : ∀ outline ∈ outlines, outline.Valid) (indents : List Nat) :
    Itemized 2 indents (fun outline => Text.unlines outline.rows) WorkflowOutline.block outlines where
  dash := fun _ _ => ⟨_, rfl⟩
  reads := by
    intro outline member rest closes
    obtain ⟨id, steps⟩ := valid outline member
    have shape : Text.unlines outline.rows ++ rest = List.replicate 2 ' ' ++
        '-' :: ' ' :: ("workflowId".toList ++ ':' :: ' ' :: (outline.id.toList ++ '\n' ::
          (List.replicate 4 ' ' ++ ("steps".toList ++ ':' :: '\n' ::
            ((outline.steps.flatMap fun step => Text.unlines step.rows) ++ rest))))) := by
      simp [WorkflowOutline.rows, Text.unlines_flatMap]
    have tokens : Token.blockEntry :: outline.block.tokens =
        [Token.blockEntry, .blockMappingStart] ++
        ([Token.key, .scalar .plain (String.ofList "workflowId".toList), .value,
          .scalar .plain (String.ofList outline.id.toList)] ++
        ([] ++ ([Token.key, .scalar .plain (String.ofList "steps".toList), .value] ++
          ((Block.listing (outline.steps.map StepOutline.block)).tokens ++
            [Token.blockEnd])))) := by
      simp [WorkflowOutline.block, Block.tokens, Block.entryTokens]
    rw [shape, tokens]
    have idKey : IsKey "workflowId".toList := by decide
    have stepsKey : IsKey "steps".toList := by decide
    have second : Outdented 4 (List.replicate 4 ' ' ++ ("steps".toList ++ ':' :: '\n' ::
        ((outline.steps.flatMap fun step => Text.unlines step.rows) ++ rest))) :=
      ⟨4, _, rfl, Nat.le_refl 4, stepsKey.halts _ _⟩
    exact (reads_dictItem idKey rfl).append <| (reads_pair idKey id.word.bare second).append <|
      (reads_spaces 4 (stepsKey.halts _ _) true).append <| (reads_key stepsKey rfl).append <|
      (reads_listing (itemized_steps steps _) (by simp [Scan.isNew]) (by decide) closes _).append <|
      reads_blockEnd closes (by decide)

theorem reads_text {outlines : List WorkflowOutline}
    (valid : ∀ outline ∈ outlines, outline.Valid) :
    Reads ⟨true, Text.unlines (rows outlines), 0, []⟩ (Block.dict (entries outlines)).tokens
      ⟨true, [], 0, []⟩ := by
  have shape : Text.unlines (rows outlines) = "workflows".toList ++ ':' :: '\n' ::
      ((outlines.flatMap fun outline => Text.unlines outline.rows) ++ []) := by
    simp [rows, Text.unlines_flatMap]
  have tokens : (Block.dict (entries outlines)).tokens = [Token.blockMappingStart] ++
      ([Token.key, .scalar .plain (String.ofList "workflows".toList), .value] ++
        ((Block.listing (outlines.map WorkflowOutline.block)).tokens ++ [Token.blockEnd])) := by
    simp [entries, Block.tokens, Block.entryTokens]
  rw [shape, tokens]
  have key : IsKey "workflows".toList := by decide
  have closes : Closes 0 [] := ⟨0, [], rfl, Nat.le_refl 0, .inl rfl⟩
  exact (reads_mappingStart key rfl rfl).append <| (reads_key key rfl).append <|
    (reads_listing (itemized_workflows valid _) rfl (by decide) closes _).append <|
    reads_blockEnd_nil 0

/-! ## The characters of the text -/

/-- A line of allowed characters, none of which breaks it. -/
def IsRow (row : List Char) : Prop :=
  ∀ c ∈ row, isAllowed c = true ∧ c ∉ ['\n', '\r', '\u0085']

instance (row : List Char) : Decidable (IsRow row) :=
  decidable_of_iff (row.all (fun c => isAllowed c && !(['\n', '\r', '\u0085'].contains c)) = true)
    (by simp [IsRow])

theorem isRow_word {word : String} (isWord : IsWord word) : IsRow word.toList := by
  intro c member
  obtain ⟨idChar, allowed⟩ := isWord.chars c member
  refine ⟨allowed, ?_⟩
  intro broken
  have blank : Positions.isIdChar c = false := by
    simp only [List.mem_cons, List.not_mem_nil, or_false] at broken
    rcases broken with rfl | rfl | rfl <;> rfl
  rw [blank] at idChar
  cases idChar

theorem IsRow.append {left right : List Char} (first : IsRow left) (second : IsRow right) :
    IsRow (left ++ right) := by
  intro c member
  rcases List.mem_append.mp member with here | there
  · exact first c here
  · exact second c there

theorem isRow_rows {outlines : List WorkflowOutline}
    (valid : ∀ outline ∈ outlines, outline.Valid) {row : List Char} (member : row ∈ rows outlines) :
    IsRow row := by
  rcases List.mem_cons.mp member with rfl | member
  · decide
  obtain ⟨outline, among, member⟩ := List.mem_flatMap.mp member
  obtain ⟨id, steps⟩ := valid outline among
  rcases List.mem_cons.mp member with rfl | member
  · exact .append (by decide) (isRow_word id.word)
  rcases List.mem_cons.mp member with rfl | member
  · decide
  obtain ⟨step, among, member⟩ := List.mem_flatMap.mp member
  obtain ⟨id, operation⟩ := steps step among
  simp only [StepOutline.rows, List.mem_cons, List.not_mem_nil, or_false] at member
  rcases member with rfl | rfl
  · exact .append (by decide) (isRow_word id.word)
  · exact .append (by decide) (isRow_word operation)

theorem lines_unlines {rows : List (List Char)} (isRow : ∀ row ∈ rows, IsRow row) :
    Text.lines (Text.unlines rows) = rows := by
  induction rows with
  | nil => rfl
  | cons row rows ih =>
    obtain ⟨first, others⟩ := List.forall_mem_cons.mp isRow
    have noBreak : '\n' ∉ row := fun here => (first _ here).2 (by decide)
    have noReturn : '\r' ∉ row.reverse := fun here => (first _ (List.mem_reverse.mp here)).2 (by decide)
    rw [Text.unlines_cons, Text.lines, Text.linesAfter_row noBreak, List.append_nil,
      Text.dropReturn_eq_self noReturn, List.reverse_reverse]
    exact congrArg (row :: ·) (ih others)

/-! ## The document of the tree -/

/-- The tree of an outline is that of its text. -/
theorem source_text {outlines : List WorkflowOutline}
    (valid : ∀ outline ∈ outlines, outline.Valid) :
    Yaml.source (text outlines).toList =
      { root := Block.node (.dict (entries outlines))
        positional := false
        depth := depthLimit
        anchors := []
        aliasLimit := 100 * (Block.events (.dict (entries outlines))).length
        intact := true } := by
  have clean : ∀ c ∈ Text.unlines (rows outlines),
      isAllowed c = true ∧ c ≠ '\r' ∧ c ≠ '\u0085' := by
    intro c member
    rcases Text.mem_unlines member with rfl | ⟨row, among, here⟩
    · decide
    · obtain ⟨allowed, noBreak⟩ := isRow_rows valid among c here
      simp only [List.mem_cons, List.not_mem_nil, or_false, not_or] at noBreak
      exact ⟨allowed, noBreak.2⟩
  rw [text, String.toList_ofList]
  exact Block.source_of_tokens (Spot.ofText_of_reads clean (reads_text valid))

end Outline

namespace Source

theorem itemNodes_eq_map (items : List Block) : Block.itemNodes items = items.map Block.node := by
  induction items with
  | nil => rfl
  | cons item items ih => rw [Block.itemNodes, ih, List.map_cons]

theorem listOf_listing {α β : Type} {decoder : Decoder β} {depth : Nat} {block : α → Block} {f : α → β}
    {values : List α} (each : ∀ a ∈ values, decoder depth (block a).node = pure (f a)) :
    listOf decoder (depth + 1) (Block.listing (values.map block)).node = pure (values.map f) := by
  cases values with
  | nil => rfl
  | cons a values =>
    have items := itemNodes_eq_map ((a :: values).map block)
    rw [List.map_map] at items
    have listed : (Block.listing ((a :: values).map block)).node =
        .list none ((a :: values).map (Block.node ∘ block)) := by
      rw [← items]
      rfl
    rw [listed]
    exact mapM_map_eq_pure each

theorem recordEntries_field {σ : Type} {fields : List (RecordField σ)} {field : RecordField σ}
    {name : String} (found : fields.find? (·.name == name) = some field) {seen : List String}
    (first : name ∉ seen) {depth : Nat} {value : Node} {change : σ → σ}
    (read : field.decoder depth value = pure change) (record : σ) (entries : List (Node × Node)) :
    recordEntries fields depth seen record ((Block.leaf name, value) :: entries) =
      recordEntries fields depth (name :: seen) (change record) entries := by
  have named : text depth (Block.leaf name) = pure name := rfl
  rw [recordEntries, named, pure_bind]
  simp [found, first, read]

theorem scalarText_leaf {id : String} (text : Scalar.ofPlain id.toList = .text id) (depth : Nat) :
    scalarText depth (Block.leaf id) = pure id := by
  have read : anyValue .written depth (Block.leaf id) = pure (some (.string id)) := by
    cases depth <;> simp [anyValue, Block.leaf, resolve, Leaf.json?, isLocalTag, Leaf.scalar?, text, Leaf.jsonOfScalar?, orMalformed]
  rw [scalarText, opaqueValue, read]
  simp [orMalformed]

theorem optional_text_leaf (word : String) (depth : Nat) :
    optional text depth (Block.leaf word) =
      pure (if word.isEmpty || Scalar.isNull word.toList then none else some word) := by
  rw [optional]
  cases absent : word.isEmpty || Scalar.isNull word.toList <;>
    simp [Block.leaf, resolve, orMalformed, Leaf.isAbsent?, absent, text, ofLeaf, Leaf.string?]

end Source

namespace Outline

/-- The step that an outline writes, but for its line. -/
def step (outline : StepOutline) : Step :=
  { stepId := outline.id
    operationId :=
      if outline.operation.isEmpty || Scalar.isNull outline.operation.toList then none
      else some outline.operation }

/-- The workflow that an outline writes, but for the lines. -/
def workflow (outline : WorkflowOutline) : Workflow :=
  { workflowId := outline.id
    steps := outline.steps.map step }

theorem decoder_step {outline : StepOutline} (valid : outline.Valid) (depth : Nat) :
    Step.decoder (depth + 1) outline.block.node = pure (step outline) := by
  have id : (field "stepId" scalarText fun v (r : Step) => { r with stepId := v }).decoder depth
      (Block.leaf outline.id) = pure fun r => { r with stepId := outline.id } := by
    simp [field, scalarText_leaf valid.id.text]
  have operation : (field "operationId" (optional Source.text) fun v (r : Step) =>
      { r with operationId := v }).decoder depth (Block.leaf outline.operation) =
      pure fun r => { r with operationId := (step outline).operationId } := by
    simp [field, optional_text_leaf, step]
  have read : Step.decoder (depth + 1) outline.block.node = recordEntries Step.fields depth [] {}
      [(Block.leaf "stepId", Block.leaf outline.id),
        (Block.leaf "operationId", Block.leaf outline.operation)] := rfl
  rw [read, recordEntries_field rfl (by simp) id, recordEntries_field rfl (by simp) operation]
  rfl

theorem decoder_workflow {outline : WorkflowOutline} (valid : outline.Valid) (depth : Nat) :
    Workflow.decoder (depth + 3) outline.block.node = pure (workflow outline) := by
  have id : (field "workflowId" scalarText fun v (r : Workflow) => { r with workflowId := v }).decoder
      (depth + 2) (Block.leaf outline.id) = pure fun r => { r with workflowId := outline.id } := by
    simp [field, scalarText_leaf valid.id.text]
  have listed := listOf_listing fun step member => decoder_step (valid.steps step member) depth
  have steps : (field "steps" (listOf Step.decoder) fun v (r : Workflow) => { r with steps := v }).decoder
      (depth + 2) (Block.listing (outline.steps.map StepOutline.block)).node =
      pure fun r => { r with steps := outline.steps.map step } := by
    simp [field, listed]
  have read : Workflow.decoder (depth + 3) outline.block.node = recordEntries Workflow.fields (depth + 2) [] {}
      [(Block.leaf "workflowId", Block.leaf outline.id),
        (Block.leaf "steps", (Block.listing (outline.steps.map StepOutline.block)).node)] := rfl
  rw [read, recordEntries_field rfl (by simp) id, recordEntries_field rfl (by simp) steps]
  rfl

theorem decoder_document {outlines : List WorkflowOutline}
    (valid : ∀ outline ∈ outlines, outline.Valid) (depth : Nat) :
    Document.decoder (depth + 5) (Block.node (.dict (entries outlines))) =
      pure { workflows := outlines.map workflow } := by
  have listed := listOf_listing fun outline member => decoder_workflow (valid outline member) depth
  have workflows : (field "workflows" (listOf Workflow.decoder) fun v (r : Document) =>
      { r with workflows := v }).decoder (depth + 4)
      (Block.listing (outlines.map WorkflowOutline.block)).node =
      pure fun r => { r with workflows := outlines.map workflow } := by
    simp [field, listed]
  have read : Document.decoder (depth + 5) (Block.node (.dict (entries outlines))) =
      recordEntries Document.fields (depth + 4) [] {}
        [(Block.leaf "workflows", (Block.listing (outlines.map WorkflowOutline.block)).node)] := rfl
  rw [read, recordEntries_field rfl (by simp) workflows]
  rfl

/-- The text of an outline is read as its workflows with their steps. -/
theorem decode_text {outlines : List WorkflowOutline} (valid : ∀ outline ∈ outlines, outline.Valid) :
    (Yaml.source (text outlines).toList).decode Document.decoder =
      .ok { workflows := outlines.map workflow } := by
  rw [source_text valid, decode_eq_ok_iff]
  refine ⟨rfl, 100 * (Block.events (.dict (entries outlines))).length, ?_⟩
  have read := decoder_document valid 123
  rw [show depthLimit = 123 + 5 from rfl, read]
  rfl

end Outline

end ApiWorkflow
