import ApiWorkflow.Command.Report
import ApiWorkflow.Proofs.Source.Codec

/-! # What the output of a command tells

`Lists` says which findings an output lists, and `Names` which operation it shows: the one
format by the characters of its lines, the other one by the tree that is read back from it. Main
statements: `lists_findings` and `names_operation`, the outputs tell what they are made of.
-/

namespace ApiWorkflow

open Source

/-- A dictionary has a value under a name. -/
def Source.Node.Has (node : Node) (name : String) (value : Node) : Prop :=
  ∃ tag entries, node = .dict tag entries ∧ (.leaf (.string (some name)), value) ∈ entries

namespace Json

/-- A text is a whole JSON value, which is read as some tree. -/
def ReadsAs (text : String) (root : Node) : Prop :=
  (source text.toList).intact = true ∧ (source text.toList).root = root

theorem has_node {fields : List (String × Json)} {name : String} {value : Json}
    (member : (name, value) ∈ fields) : (node (.object fields)).Has name (node value) := by
  refine ⟨none, entryNodes fields, rfl, ?_⟩
  rw [entryNodes_eq]
  exact List.mem_map.mpr ⟨(name, value), member, rfl⟩

theorem has_string {fields : List (String × Json)} {name text : String}
    (member : (name, .string text) ∈ fields) :
    (node (.object fields)).Has name (.leaf (.string (some text))) := by
  rw [← node_string]
  exact has_node member

end Json

namespace Report

theorem toList_ofJson (value : Json) : (ofJson value).toList = value.spread.toList ++ ['\n'] := by
  simp [ofJson, unlines, String.join]

theorem readsAs_ofJson {value : Json} (exact : value.Exact) :
    Json.ReadsAs (ofJson value) (Json.node value) := by
  rw [Json.ReadsAs, toList_ofJson, Json.source_spread exact]
  exact ⟨rfl, rfl⟩

/-! ## Findings -/

/-- How a finding is called. -/
def word (f : Finding) : String :=
  if f.isError then "error" else "warning"

/-- The line about a finding in a file. -/
def lineAbout (file : String) (f : Finding) : String :=
  file ++ ":" ++ toString (f.line + 1) ++ ": " ++ word f ++ ": " ++ f.message ++ "\n"

/-- A tree is about a finding. -/
structure IsAbout (f : Finding) (node : Node) : Prop where
  line : node.Has "line" (Json.node (.int f.line))
  column : node.Has "column" (Json.node (.int f.column))
  message : node.Has "message" (.leaf (.string (some f.message)))
  severity : node.Has "severity" (.leaf (.string (some (word f))))

/-- An output lists findings in a file, all of them in order and no others. -/
inductive Lists (file : String) (found : List Finding) : OutputFormat → String → Prop where
  | text : Lists file found .text (String.join (found.map (lineAbout file)) ++
      toString (found.countP Finding.isError) ++ " error(s), " ++
      toString (found.countP fun f => !f.isError) ++ " warning(s)\n")
  | json {output : String} {root : Node} {items : List Node} (reads : Json.ReadsAs output root)
      (named : root.Has "file" (.leaf (.string (some file))))
      (listed : root.Has "findings" (.list none items)) (each : List.Forall₂ IsAbout found items) :
      Lists file found .json output

/-- An output shows a finding in a file. -/
inductive Shows (file : String) (f : Finding) : OutputFormat → String → Prop where
  /-- It has a line of its own. -/
  | text {before after : String} (starts : ∀ c ∈ before.toList.getLast?, c = '\n') :
      Shows file f .text (before ++ lineAbout file f ++ after)
  | json {output : String} {root item : Node} {items : List Node} (reads : Json.ReadsAs output root)
      (listed : root.Has "findings" (.list none items)) (member : item ∈ items)
      (about : IsAbout f item) : Shows file f .json output

theorem name_severity (f : Finding) : f.severity.name = word f := by
  rw [word, Finding.isError]
  cases f.severity <;> rfl

theorem isAbout_json (f : Finding) : IsAbout f (Json.node f.json) where
  line := Json.has_node (by simp)
  column := Json.has_node (by simp)
  message := Json.has_string (by simp)
  severity := Json.has_string (by simp [name_severity])

theorem countP_not_isError (found : List Finding) :
    (found.countP fun f => !f.isError) = found.length - errorCount found := by
  have all := List.length_eq_countP_add_countP Finding.isError (l := found)
  simp only [Bool.not_eq_true, Bool.decide_eq_false] at all
  rw [all, errorCount, Nat.add_sub_cancel_left]

theorem findings_text (file : String) (found : List Finding) :
    findings .text file found = String.join (found.map (lineAbout file)) ++
      toString (found.countP Finding.isError) ++ " error(s), " ++
      toString (found.countP fun f => !f.isError) ++ " warning(s)\n" := by
  have line (f : Finding) : findingLine file f ++ "\n" = lineAbout file f := by
    rw [findingLine, lineAbout, name_severity]
  have lines : (found.map (findingLine file)).map (· ++ "\n") = found.map (lineAbout file) := by
    simp only [List.map_map, Function.comp_def, line]
  rw [countP_not_isError, findings, unlines, List.map_append, String.join_append, lines, errorCount]
  simp [String.append_assoc]

theorem exact_json (f : Finding) : f.json.Exact := by
  simp [Finding.json, Json.Exact, Json.doubles, Json.fieldDoubles]

theorem lists_findings (format : OutputFormat) (file : String) (found : List Finding) :
    Lists file found format (findings format file found) := by
  cases format with
  | text =>
    rw [findings_text]
    exact .text
  | json =>
    let fields : List (String × Json) :=
      [("file", .string file), ("errors", .int (errorCount found)),
        ("warnings", .int (found.length - errorCount found : Nat)),
        ("findings", .ofList Finding.json found)]
    have exact : Json.Exact (.object fields) := by
      have each : Json.Exact (.ofList Finding.json found) :=
        Json.exact_array.mpr (List.forall_mem_map.mpr fun f _ => exact_json f)
      have leaf : Json.Exact (.string file) ∧ ∀ i, Json.Exact (.int i) := by
        simp [Json.Exact, Json.doubles]
      rw [Json.exact_object]
      simp only [fields, List.forall_mem_cons]
      exact ⟨leaf.1, leaf.2 _, leaf.2 _, each, List.forall_mem_nil _⟩
    have listed : (Json.node (.object fields)).Has "findings"
        (.list none (found.map fun f => Json.node f.json)) := by
      have items : Json.node (.ofList Finding.json found) =
          .list none (found.map fun f => Json.node f.json) := by
        rw [Json.ofList, Json.node, Json.itemNodes_eq, List.map_map]
        rfl
      rw [← items]
      exact Json.has_node (by simp [fields])
    have named : (Json.node (.object fields)).Has "file" (.leaf (.string (some file))) :=
      Json.has_string (by simp [fields])
    refine .json (readsAs_ofJson exact) named listed ?_
    rw [List.forall₂_map_right_iff, List.forall₂_same]
    exact fun f _ => isAbout_json f

theorem getLast?_join_lineAbout (file : String) (found : List Finding) :
    ∀ c ∈ (String.join (found.map (lineAbout file))).toList.getLast?, c = '\n' := by
  rcases List.eq_nil_or_concat found with rfl | ⟨earlier, last, rfl⟩
  · simp
  · simp [lineAbout, List.getLast?_append, List.getLast?_cons]

theorem Lists.shows {file output : String} {found : List Finding} {format : OutputFormat}
    (lists : Lists file found format output) {f : Finding} (member : f ∈ found) :
    Shows file f format output := by
  cases lists with
  | text =>
    obtain ⟨before, after, rfl⟩ := List.append_of_mem member
    rw [List.map_append, List.map_cons, String.join_append, String.join_cons, String.append_assoc,
      String.append_assoc, String.append_assoc, String.append_assoc, String.append_assoc,
      ← String.append_assoc]
    exact .text (getLast?_join_lineAbout file before)
  | json reads named listed each =>
    obtain ⟨item, isItem, about⟩ :=
      exists_of_forall₂ (R := fun item f => IsAbout f item) each.flip member
    exact .json reads listed isItem about

/-! ## Operations -/

/-- An output shows an operation, first of all by its id. -/
inductive Names (o : Operation) : OutputFormat → String → Prop where
  | text {more : String} : Names o .text ("- " ++ o.operationId ++ " " ++ o.method ++ " " ++ o.path ++
      " (" ++ o.fileName ++ ":" ++ toString (o.line + 1) ++ ")" ++ "\n" ++ more)
  | json {output : String} {root : Node} (reads : Json.ReadsAs output root)
      (id : root.Has "operation_id" (.leaf (.string (some o.operationId))))
      (method : root.Has "method" (.leaf (.string (some o.method))))
      (path : root.Has "path" (.leaf (.string (some o.path))))
      (fileUri : root.Has "file_uri" (.leaf (.string (some o.fileUri))))
      (fileName : root.Has "file_name" (.leaf (.string (some o.fileName))))
      (line : root.Has "line" (Json.node (.int o.line))) : Names o .json output

theorem exact_operation (o : Operation) : o.json.Exact := by
  have tags : Json.Exact (.ofList .string o.tags) := by
    refine Json.exact_array.mpr (List.forall_mem_map.mpr fun tag _ => ?_)
    simp [Json.Exact, Json.doubles]
  have leaf : (∀ s, Json.Exact (.string s)) ∧ ∀ i, Json.Exact (.int i) := by
    simp [Json.Exact, Json.doubles]
  rw [Operation.json, Json.exact_object]
  simp only [List.forall_mem_cons, leaf, tags, true_and]
  exact List.forall_mem_nil _

theorem names_operation (format : OutputFormat) (o : Operation) :
    Names o format (operation format o) := by
  cases format with
  | text =>
    rw [operation, unlines, List.cons_append, List.map_cons, String.join_cons, operationLine]
    exact .text
  | json =>
    exact .json (readsAs_ofJson (exact_operation o)) (Json.has_string (by simp))
      (Json.has_string (by simp)) (Json.has_string (by simp)) (Json.has_string (by simp))
      (Json.has_string (by simp)) (Json.has_node (by simp))

end Report

end ApiWorkflow
