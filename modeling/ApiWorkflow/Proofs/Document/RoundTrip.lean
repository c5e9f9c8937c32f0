import ApiWorkflow.Command.Run
import ApiWorkflow.Proofs.Command.Output
import ApiWorkflow.Proofs.Document.Text
import ApiWorkflow.Proofs.Source.Record

/-! # Documents that are read once more -/

namespace ApiWorkflow

open Source

theorem codec_scalarText : Codec scalarText .string 0 "" where
  restores := by
    intro depth node s _ _ _ _
    rw [Json.node_string]
    cases depth <;> rfl
  initial := by
    intro depth _ _
    rw [Json.node_string]
    cases depth <;> rfl

theorem codec_text? : Codec (optional text) .ofText? 0 none :=
  codec_optional codec_text.restores fun _ _ _ _ _ _ => by simp

theorem Json.ofOption_id (value : Option Json) : ofOption id value = value.getD .null := by
  cases value <;> rfl

theorem codec_value? : Codec (optional opaqueValue) (.ofOption id) 0 none :=
  codec_optional codec_opaqueValue.restores keepsNull_opaqueValue

namespace Info

def slots : List (Slot Info) :=
  [⟨"title", scalarText, fun v r => { r with title := v }, title, .string⟩,
    ⟨"version", scalarText, fun v r => { r with version := v }, version, .string⟩,
    ⟨"summary", scalarText, fun v r => { r with summary := v }, summary, .string⟩,
    ⟨"description", scalarText, fun v r => { r with description := v }, description, .string⟩]

theorem layout : Layout slots {} 0 where
  apart := by simp [slots, Slot.apart_iff]
  get_put := by simp [slots]
  refill_init := rfl
  refill_put := by simp [slots, refill]
  codec := by
    simp only [slots, List.forall_mem_cons]
    exact ⟨codec_scalarText, codec_scalarText, codec_scalarText, codec_scalarText, by simp⟩

theorem codec : Codec decoder json 1 {} := by
  have written (i : Info) : i.json = .object (slots.map (Slot.entry · i) ++ []) := rfl
  exact layout.codec_record written (by simp)

end Info

namespace Parameter

def slots : List (Slot Parameter) :=
  [⟨"name", text, fun v r => { r with name := v }, name, .string⟩,
    ⟨"in", optional text, fun v r => { r with location := v }, location, .ofText?⟩,
    ⟨"value", opaqueValue, fun v r => { r with value := v }, value, id⟩,
    ⟨"reference", optional text, fun v r => { r with reference := v }, reference, .ofText?⟩]

theorem layout : Layout slots {} 0 where
  apart := by simp [slots, Slot.apart_iff]
  get_put := by simp [slots]
  refill_init := rfl
  refill_put := by simp [slots, refill]
  codec := by
    simp only [slots, List.forall_mem_cons]
    exact ⟨codec_text, codec_text?, codec_opaqueValue, codec_text?, by simp⟩

theorem codec : Codec decoder json 1 {} := by
  have written (p : Parameter) : p.json = .object (slots.map (Slot.entry · p) ++ []) := rfl
  exact layout.codec_record written (by simp)

end Parameter

namespace RequestBody

def slots : List (Slot RequestBody) :=
  [⟨"contentType", optional text, fun v r => { r with contentType := v }, contentType, .ofText?⟩,
    ⟨"payload", opaqueValue, fun v r => { r with payload := v }, payload, id⟩,
    ⟨"replacements", listOf opaqueValue, fun v r => { r with replacements := v }, replacements,
      .ofList id⟩]

theorem layout : Layout slots {} 1 where
  apart := by simp [slots, Slot.apart_iff]
  get_put := by simp [slots]
  refill_init := rfl
  refill_put := by simp [slots, refill]
  codec := by
    simp only [slots, List.forall_mem_cons]
    exact ⟨codec_text?.mono (by decide), codec_opaqueValue.mono (by decide),
      codec_listOf codec_opaqueValue.restores, by simp⟩

theorem codec : Codec decoder json 2 {} := by
  have written (b : RequestBody) : b.json = .object (slots.map (Slot.entry · b) ++ []) := by
    simp [json, slots, Slot.entry, Json.ofList]
  exact layout.codec_record written (by simp)

end RequestBody

namespace Criterion

def slots : List (Slot Criterion) :=
  [⟨"condition", text, fun v r => { r with condition := v }, condition, .string⟩,
    ⟨"context", optional text, fun v r => { r with context := v }, context, .ofText?⟩,
    ⟨"type", optional opaqueValue, fun v r => { r with kind := v }, kind, .ofOption id⟩]

theorem layout : Layout slots {} 0 where
  apart := by simp [slots, Slot.apart_iff]
  get_put := by simp [slots]
  refill_init := rfl
  refill_put := by simp [slots, refill]
  codec := by
    simp only [slots, List.forall_mem_cons]
    exact ⟨codec_text, codec_text?, codec_value?, by simp⟩

theorem codec : Codec decoder json 1 {} := by
  have written (c : Criterion) : c.json = .object (slots.map (Slot.entry · c) ++ []) := by
    simp [json, slots, Slot.entry, Json.ofOption_id]
  exact layout.codec_record written (by simp)

end Criterion

namespace Action

def slots : List (Slot Action) :=
  [⟨"name", optional text, fun v r => { r with name := v }, name, .ofText?⟩,
    ⟨"type", optional text, fun v r => { r with kind := v }, kind, .ofText?⟩,
    ⟨"workflowId", optional text, fun v r => { r with workflowId := v }, workflowId, .ofText?⟩,
    ⟨"stepId", optional text, fun v r => { r with stepId := v }, stepId, .ofText?⟩,
    ⟨"retryAfter", optional double, fun v r => { r with retryAfter := v }, retryAfter,
      .ofOption .ofDouble⟩,
    ⟨"retryLimit", optional natural, fun v r => { r with retryLimit := v }, retryLimit,
      .ofOption fun n => .int n⟩,
    ⟨"criteria", listOf Criterion.decoder, fun v r => { r with criteria := v }, criteria,
      .ofList Criterion.json⟩,
    ⟨"reference", optional text, fun v r => { r with reference := v }, reference, .ofText?⟩]

theorem layout : Layout slots {} 2 where
  apart := by simp [slots, Slot.apart_iff]
  get_put := by simp [slots]
  refill_init := rfl
  refill_put := by simp [slots, refill]
  codec := by
    have text? := codec_text?.mono (Nat.zero_le 2)
    have double? := (codec_optional restores_double keepsNull_double).mono (Nat.zero_le 2)
    have natural? := codec_optional restores_natural fun _ _ _ _ _ _ => by simp
    simp only [slots, List.forall_mem_cons]
    exact ⟨text?, text?, text?, text?, double?, natural?.mono (Nat.zero_le 2),
      codec_listOf Criterion.codec.restores, text?, by simp⟩

theorem codec : Codec decoder json 3 {} := by
  have written (a : Action) : a.json = .object (slots.map (Slot.entry · a) ++ []) := by
    obtain ⟨name, kind, workflowId, stepId, retryAfter, retryLimit, criteria, reference⟩ := a
    cases retryLimit <;> rfl
  exact layout.codec_record written (by simp)

end Action

/-! ## Source descriptions -/

namespace SourceDescription

/-- A field that is kept: it is none of the known ones, and its value comes out again. -/
def Kept (depth : Nat) (name : String) (value : Json) : Prop :=
  fields.find? (·.name == name) = none ∧ Again .typed depth value

theorem kept_readEntries {depth : Nat} {entries : List (Node × Node)}
    (typed : ∀ entry ∈ entries, entry.2.Typed) {seen : List String}
    {source result : SourceDescription} {kept all : List (String × Option Json)}
    (yields : Yields (readEntries depth seen source kept entries) (result, all))
    (before : ∀ name value, (name, some value) ∈ kept → Kept depth name value) :
    ∀ name value, (name, some value) ∈ all → Kept depth name value := by
  induction entries generalizing seen source kept with
  | nil =>
    cases yields_pure yields
    intro name value member
    exact before name value (List.mem_reverse.mp member)
  | cons entry entries ih =>
    obtain ⟨typedFirst, typedRest⟩ := List.forall_mem_cons.mp typed
    rw [readEntries] at yields
    obtain ⟨name, -, yields⟩ := yields_bind yields
    split at yields
    · rename_i unknown
      obtain ⟨found, read, yields⟩ := yields_bind yields
      refine ih typedRest yields ?_
      intro other value member
      rcases List.mem_cons.mp member with same | earlier
      · cases same
        exact ⟨unknown, again_of_yields typedFirst read⟩
      · exact before other value earlier
    · split at yields
      · exact (not_yields_malformed yields).elim
      · obtain ⟨change, -, yields⟩ := yields_bind yields
        exact ih typedRest yields before

theorem readEntries_kept {depth : Nat} {extensions : Fields Json}
    (kept : ∀ entry ∈ extensions, Kept depth entry.1 entry.2)
    (exact : ∀ entry ∈ extensions, entry.2.Exact) (seen : List String) (source : SourceDescription)
    (before : List (String × Option Json)) :
    readEntries depth seen source before (Json.entryNodes extensions) =
      pure (source, before.reverse ++ extensions.map fun (name, value) => (name, some value)) := by
  induction extensions generalizing before with
  | nil => simp [Json.entryNodes, readEntries]
  | cons entry extensions ih =>
    obtain ⟨name, value⟩ := entry
    obtain ⟨⟨unknown, again⟩, keptRest⟩ := List.forall_mem_cons.mp kept
    obtain ⟨exactFirst, exactRest⟩ := List.forall_mem_cons.mp exact
    rw [Json.entryNodes, readEntries, text_string, pure_bind, unknown]
    dsimp only
    rw [again exactFirst, pure_bind, ih keptRest exactRest]
    simp

theorem readEntries_known (depth : Nat) (s : SourceDescription) (entries : List (Node × Node)) :
    readEntries depth [] {} [] ((.leaf (.string (some "name")), .leaf (.string (some s.name))) ::
        (.leaf (.string (some "url")), .leaf (.string (some s.url))) ::
        (.leaf (.string (some "type")), .leaf (.string (some s.kind))) :: entries) =
      readEntries depth ["type", "url", "name"] { s with extensions := [] } [] entries := by
  cases depth <;> rfl

theorem stable_of_kept {depth : Nat} {s : SourceDescription} (ordered : s.extensions.Ordered)
    (kept : ∀ entry ∈ s.extensions, Kept depth entry.1 entry.2) :
    Stable decoder json (depth + 1) s := by
  intro exact
  have exactExtensions : ∀ entry ∈ s.extensions, entry.2.Exact := fun entry member =>
    Json.exact_object.mp exact entry (List.mem_append_right _ member)
  have node : s.json.node =
      .dict none ((.leaf (.string (some "name")), .leaf (.string (some s.name))) ::
        (.leaf (.string (some "url")), .leaf (.string (some s.url))) ::
        (.leaf (.string (some "type")), .leaf (.string (some s.kind))) ::
        Json.entryNodes s.extensions) := by
    rw [json, Json.node]
    simp only [List.cons_append, List.nil_append, Json.entryNodes, Json.node_string]
  have read (entries : List (Node × Node)) : decoder (depth + 1) (.dict none entries) =
      readEntries depth [] {} [] entries >>= fun done =>
        orMalformed (allFields (done.2.map fun entry => (some entry.1, entry.2))) >>= fun kept =>
          pure { done.1 with extensions := Fields.ofList kept } := rfl
  have all : allFields ((s.extensions.map fun entry => (entry.1, some entry.2)).map
      fun entry => (some entry.1, entry.2)) = some s.extensions := by
    rw [List.map_map]
    exact allFields_map_some s.extensions
  rw [node, read, readEntries_known, readEntries_kept kept exactExtensions, pure_bind]
  dsimp only
  rw [List.reverse_nil, List.nil_append, all, orMalformed, pure_bind, Fields.ofList_eq_self ordered]

theorem codec : Codec decoder json 1 {} where
  restores := by
    intro depth node s enough typed yields
    rw [decoder, resolve_typed typed, pure_bind] at yields
    cases typed with
    | leaf typed =>
      cases typed <;> exact (not_yields_malformed yields).elim
    | list => exact (not_yields_malformed yields).elim
    | cut => exact (not_yields_malformed yields).elim
    | dict keys values =>
      cases depth with
      | zero => exact (not_yields_malformed yields).elim
      | succ depth =>
        obtain ⟨⟨source, all⟩, read, yields⟩ := yields_bind yields
        obtain ⟨found, whole, last⟩ := yields_bind yields
        cases yields_pure last
        have kept := kept_readEntries values read (by simp)
        have same := allFields_eq_some (yields_orMalformed whole)
        refine stable_of_kept (Fields.ordered_ofList found) fun entry member => ?_
        have among := List.mem_map_of_mem (f := fun (name, value) => (some name, some value))
          (Fields.mem_ofList member)
        rw [← same] at among
        obtain ⟨⟨name, value⟩, memberAll, pair⟩ := List.mem_map.mp among
        cases pair
        exact kept _ _ memberAll
  initial := by
    intro depth enough
    obtain ⟨less, rfl⟩ : ∃ less, depth = less + 1 := ⟨depth - 1, by omega⟩
    exact stable_of_kept Fields.ordered_nil (by simp)

end SourceDescription

/-! ## Steps and workflows, with any lines -/

namespace Step

def slots : List (Slot Step) :=
  [⟨"stepId", scalarText, fun v r => { r with stepId := v }, stepId, .string⟩,
    ⟨"description", optional text, fun v r => { r with description := v }, description, .ofText?⟩,
    ⟨"operationId", optional text, fun v r => { r with operationId := v }, operationId, .ofText?⟩,
    ⟨"operationPath", optional text, fun v r => { r with operationPath := v }, operationPath,
      .ofText?⟩,
    ⟨"workflowId", optional text, fun v r => { r with workflowId := v }, workflowId, .ofText?⟩,
    ⟨"parameters", listOf Parameter.decoder, fun v r => { r with parameters := v }, parameters,
      .ofList Parameter.json⟩,
    ⟨"requestBody", optional RequestBody.decoder, fun v r => { r with requestBody := v },
      requestBody, .ofOption RequestBody.json⟩,
    ⟨"successCriteria", listOf Criterion.decoder, fun v r => { r with successCriteria := v },
      successCriteria, .ofList Criterion.json⟩,
    ⟨"onSuccess", listOf Action.decoder, fun v r => { r with onSuccess := v }, onSuccess,
      .ofList Action.json⟩,
    ⟨"onFailure", listOf Action.decoder, fun v r => { r with onFailure := v }, onFailure,
      .ofList Action.json⟩,
    ⟨"outputs", fieldsOf opaqueValue, fun v r => { r with outputs := v }, outputs, .object⟩]

theorem layout : Layout slots {} 4 where
  apart := by simp [slots, Slot.apart_iff]
  get_put := by simp [slots]
  refill_init := rfl
  refill_put := by simp [slots, refill]
  codec := by
    have text? := codec_text?.mono (Nat.zero_le 4)
    have body? := codec_optional RequestBody.codec.restores fun _ _ _ _ _ _ => by
      simp [RequestBody.json]
    have actions := codec_listOf Action.codec.restores
    simp only [slots, List.forall_mem_cons]
    exact ⟨codec_scalarText.mono (by decide), text?, text?, text?, text?,
      (codec_listOf Parameter.codec.restores).mono (by decide), body?.mono (by decide),
      (codec_listOf Criterion.codec.restores).mono (by decide), actions, actions,
      codec_fieldsOf.mono (by decide), by simp⟩

/-- A step as it is written with some line. -/
def jsonOn (line : Step → Nat) (s : Step) : Json :=
  json { s with line := line s }

theorem codec (line : Step → Nat) : Codec decoder (jsonOn line) 5 {} := by
  have written (s : Step) : s.jsonOn line =
      .object (slots.map (Slot.entry · s) ++ [("line", .int (line s))]) := rfl
  exact layout.codec_record written (by simp [slots])

end Step

namespace Workflow

def slots (stepJson : Step → Json) : List (Slot Workflow) :=
  [⟨"workflowId", scalarText, fun v r => { r with workflowId := v }, workflowId, .string⟩,
    ⟨"summary", optional text, fun v r => { r with summary := v }, summary, .ofText?⟩,
    ⟨"description", optional text, fun v r => { r with description := v }, description, .ofText?⟩,
    ⟨"inputs", optional opaqueValue, fun v r => { r with inputs := v }, inputs, .ofOption id⟩,
    ⟨"dependsOn", listOf text, fun v r => { r with dependsOn := v }, dependsOn, .ofList .string⟩,
    ⟨"steps", listOf Step.decoder, fun v r => { r with steps := v }, steps, .ofList stepJson⟩,
    ⟨"parameters", listOf Parameter.decoder, fun v r => { r with parameters := v }, parameters,
      .ofList Parameter.json⟩,
    ⟨"successActions", listOf Action.decoder, fun v r => { r with successActions := v },
      successActions, .ofList Action.json⟩,
    ⟨"failureActions", listOf Action.decoder, fun v r => { r with failureActions := v },
      failureActions, .ofList Action.json⟩,
    ⟨"outputs", fieldsOf opaqueValue, fun v r => { r with outputs := v }, outputs, .object⟩]

theorem layout {stepJson : Step → Json} (steps : Restores Step.decoder stepJson 5) :
    Layout (slots stepJson) {} 6 where
  apart := by simp [slots, Slot.apart_iff]
  get_put := by simp [slots]
  refill_init := rfl
  refill_put := by simp [slots, refill]
  codec := by
    have text? := codec_text?.mono (Nat.zero_le 6)
    have actions := (codec_listOf Action.codec.restores).mono (show 4 ≤ 6 by decide)
    simp only [slots, List.forall_mem_cons]
    exact ⟨codec_scalarText.mono (by decide), text?, text?, codec_value?.mono (by decide),
      (codec_listOf codec_text.restores).mono (by decide), codec_listOf steps,
      (codec_listOf Parameter.codec.restores).mono (by decide), actions, actions,
      codec_fieldsOf.mono (by decide), by simp⟩

/-- A workflow as it is written with some lines. -/
def jsonOn (line : Workflow → Nat) (stepLine : Step → Nat) (w : Workflow) : Json :=
  json { w with line := line w, steps := w.steps.map fun s => { s with line := stepLine s } }

theorem codec (line : Workflow → Nat) (stepLine : Step → Nat) :
    Codec decoder (jsonOn line stepLine) 7 {} := by
  have written (w : Workflow) : w.jsonOn line stepLine =
      .object ((slots (Step.jsonOn stepLine)).map (Slot.entry · w) ++
        [("line", .int (line w))]) := by
    simp [jsonOn, json, slots, Slot.entry, Json.ofList, Json.ofOption_id, Step.jsonOn]
  exact (layout (Step.codec stepLine).restores).codec_record written (by simp [slots])

end Workflow

namespace Components

def slots : List (Slot Components) :=
  [⟨"inputs", fieldsOf opaqueValue, fun v r => { r with inputs := v }, inputs, .object⟩,
    ⟨"parameters", fieldsOf opaqueValue, fun v r => { r with parameters := v }, parameters, .object⟩,
    ⟨"successActions", fieldsOf opaqueValue, fun v r => { r with successActions := v },
      successActions, .object⟩,
    ⟨"failureActions", fieldsOf opaqueValue, fun v r => { r with failureActions := v },
      failureActions, .object⟩]

theorem layout : Layout slots {} 1 where
  apart := by simp [slots, Slot.apart_iff]
  get_put := by simp [slots]
  refill_init := rfl
  refill_put := by simp [slots, refill]
  codec := by
    simp only [slots, List.forall_mem_cons]
    exact ⟨codec_fieldsOf, codec_fieldsOf, codec_fieldsOf, codec_fieldsOf, by simp⟩

theorem codec : Codec decoder json 2 {} := by
  have written (c : Components) : c.json = .object (slots.map (Slot.entry · c) ++ []) := rfl
  exact layout.codec_record written (by simp)

end Components

namespace Document

def slots (workflowJson : Workflow → Json) : List (Slot Document) :=
  [⟨"arazzo", scalarText, fun v r => { r with arazzo := v }, arazzo, .string⟩,
    ⟨"info", Info.decoder, fun v r => { r with info := v }, info, Info.json⟩,
    ⟨"sourceDescriptions", listOf SourceDescription.decoder,
      fun v r => { r with sourceDescriptions := v }, sourceDescriptions,
      .ofList SourceDescription.json⟩,
    ⟨"workflows", listOf Workflow.decoder, fun v r => { r with workflows := v }, workflows,
      .ofList workflowJson⟩,
    ⟨"components", optional Components.decoder, fun v r => { r with components := v }, components,
      .ofOption Components.json⟩]

theorem layout {workflowJson : Workflow → Json}
    (workflows : Restores Workflow.decoder workflowJson 7) : Layout (slots workflowJson) {} 8 where
  apart := by simp [slots, Slot.apart_iff]
  get_put := by simp [slots]
  refill_init := rfl
  refill_put := by simp [slots, refill]
  codec := by
    have components? := codec_optional Components.codec.restores fun _ _ _ _ _ _ => by
      simp [Components.json]
    simp only [slots, List.forall_mem_cons]
    exact ⟨codec_scalarText.mono (by decide), Info.codec.mono (by decide),
      (codec_listOf SourceDescription.codec.restores).mono (by decide), codec_listOf workflows,
      components?.mono (by decide), by simp⟩

/-- A document comes out again with whatever lines it is written. -/
theorem codec (positions : Fields Nat) :
    Codec decoder (fun d => (d.withLines positions).json) 9 {} := by
  have workflows := Workflow.codec (fun w => lineOf positions (workflowMark ++ w.workflowId))
    fun s => lineOf positions (stepMark ++ s.stepId)
  have written (d : Document) : (d.withLines positions).json =
      .object ((slots (Workflow.jsonOn (fun w => lineOf positions (workflowMark ++ w.workflowId))
          fun s => lineOf positions (stepMark ++ s.stepId))).map (Slot.entry · d) ++
        [("positions", .object (positions.map fun entry => (entry.1, .int entry.2)))]) := by
    simp [json, withLines, slots, Slot.entry, Json.ofList, Workflow.jsonOn]
  exact (layout workflows.restores).codec_record written (by simp [slots])

theorem toList_output (value : Json) :
    (Command.Printed.document value).output.toList = value.spread.toList ++ ['\n'] :=
  Report.toList_ofJson value

theorem head_spread (d : Document) : ∃ tail, d.json.spread.toList = '\x7b' :: tail :=
  ⟨_, Json.toList_spreadAt_object 0 _ _⟩

theorem parse_printed_document {text : String} {d : Document}
    (isJson : Format.ofText text.toList = .json) (parsed : parse text = .ok d)
    (exact : d.json.Exact) :
    let printed := (Command.Printed.document d.json).output
    parse printed = .ok (d.withLines (Positions.scan printed.toList)) := by
  intro printed
  obtain ⟨-, plain, decoded, rfl⟩ := parse_eq_ok_iff.mp parsed
  obtain ⟨tail, head⟩ := head_spread (plain.withLines (Positions.scan text.toList))
  rw [isJson] at decoded
  obtain ⟨-, left, ran⟩ := Source.decode_eq_ok_iff.mp decoded
  have yields : Yields (decoder Json.depthLimit (Json.source text.toList).root) plain :=
    ⟨_, _, _, ran⟩
  have again := (codec (Positions.scan text.toList)).restores (by decide)
    (Json.typed_source text.toList) yields exact
  have starts : printed.toList = '\x7b' :: (tail ++ ['\n']) := by
    rw [toList_output, head, List.cons_append]
  rw [parse_eq_ok_iff]
  refine ⟨?_, plain, ?_, withLines_withLines _ _ plain⟩
  · rw [starts]
    exact Text.isBlankText_cons rfl _
  · rw [starts, Format.ofText_brace, ← starts, toList_output, Format.source, Json.source_spread exact,
      Source.decode_eq_ok_iff]
    refine ⟨rfl, 0, ?_⟩
    dsimp only
    rw [again]
    rfl

/-- A document with a record given by position, a number for a text, a field to be kept
    and numbers of both kinds. -/
def flow : String :=
  "\x7b\"info\":[\"Pets\",2],\"sourceDescriptions\":[\x7b\"x\":0.1\x7d],\"workflows\":[\x7b" ++
  "\"steps\":[\x7b\"stepId\":\"\\u0001\",\"onFailure\":[\x7b\"retryAfter\":2\x7d]\x7d]\x7d]\x7d"

theorem parse_printed_flow :
    ∃ d, parse flow = .ok d ∧ d.json.Exact ∧ d.json.doubles.length = 2 ∧
      parse (Command.Printed.document d.json).output =
        .ok (d.withLines (Positions.scan (Command.Printed.document d.json).output.toList)) := by
  have accepted : ∃ d ∈ (parse flow).toOption, d.json.Exact ∧ d.json.doubles.length = 2 := by
    decide +kernel
  obtain ⟨d, found, exact, two⟩ := accepted
  have parsed : parse flow = .ok d := by
    cases parsed : parse flow <;> rw [parsed] at found <;> cases found
    rfl
  exact ⟨d, parsed, exact, two, parse_printed_document (by decide +kernel) parsed exact⟩

end Document

end ApiWorkflow
