import ApiWorkflow.Proofs.Catalog.Rebuild
import ApiWorkflow.Proofs.Command.Verdict

/-! # Looking up what a document runs

Two commands ask for an operation. Checking a document asks for each operation that a step
runs, once any are known, and looking one up asks for that one in a run of its own. Both read
the same descriptions, so a step is warned about if and only if its operation cannot be looked up.
-/

namespace ApiWorkflow

/-! ## Command lines -/

namespace Arguments

theorem file?_self {name path : String} (isFile : file? name = some path) :
    file? path = some path := by
  unfold file? at isFile
  split at isFile
  · cases isFile
  · rename_i named
    cases isFile
    exact if_neg named

/-- The settings that options name have a name. -/
def Options.Named (o : Options) : Prop :=
  ∀ path, o.config = some path → file? path = some path

theorem Options.Named.set {o next : Options} (named : o.Named) {name value : String}
    {set : Options → String → Option Options} (known : setter? name = some set)
    (sets : set o value = some next) : next.Named := by
  unfold setter? at known
  split at known
  · cases known
    unfold setConfig at sets
    split at sets
    · cases sets
    · obtain ⟨path, isFile, rfl⟩ := Option.map_eq_some_iff.mp sets
      intro other same
      cases same
      exact file?_self isFile
  · split at known
    · cases known
      unfold setOutput at sets
      split at sets
      · cases sets
      · obtain ⟨format, -, rfl⟩ := Option.map_eq_some_iff.mp sets
        exact named
    · cases known

theorem file?_of_command? {name : String} {arguments : List String} {command : Command}
    (reads : command? name arguments = some command) : file? command.file = some command.file := by
  unfold command? at reads
  obtain ⟨rest, -, reads⟩ := Option.bind_eq_some_iff.mp reads
  split at reads
  case h_5 => cases reads
  all_goals
    obtain ⟨file, isFile, same⟩ := Option.bind_eq_some_iff.mp reads
    cases same
    exact file?_self isFile

theorem Options.Named.readFrom {o last : Options} (named : o.Named) {arguments : List String}
    {command : Command} (reads : Arguments.readFrom o arguments = some (last, command)) :
    last.Named ∧ file? command.file = some command.file := by
  fun_induction Arguments.readFrom o arguments with
  | case1 | case3 | case5 => cases reads
  | case2 o argument arguments name value attached ih =>
    obtain ⟨set, known, reads⟩ := Option.bind_eq_some_iff.mp reads
    obtain ⟨next, sets, reads⟩ := Option.bind_eq_some_iff.mp reads
    exact ih next (named.set known sets) reads
  | case4 o argument notAttached set value arguments known plain ih =>
    obtain ⟨next, sets, reads⟩ := Option.bind_eq_some_iff.mp reads
    exact ih next (named.set known sets) reads
  | case6 o argument notAttached arguments unknown =>
    obtain ⟨command, isCommand, same⟩ := Option.map_eq_some_iff.mp reads
    cases same
    exact ⟨named, file?_of_command? isCommand⟩

theorem config_of_parse {env : Environment} {line : List String} {config : Option String}
    {output : OutputFormat} {command : Command}
    (parsed : parse env line = some ⟨config, output, command⟩) :
    file? command.file = some command.file ∧
      ((∃ path, config = some path ∧ file? path = some path) ∨
        (config = none ∧ env configKey = none)) := by
  unfold parse at parsed
  obtain ⟨⟨o, read⟩, reads, parsed⟩ := Option.bind_eq_some_iff.mp parsed
  have start : Options.Named {} := nofun
  obtain ⟨named, isFile⟩ := start.readFrom reads
  dsimp only at parsed
  split at parsed
  · rename_i path given
    cases parsed
    exact ⟨isFile, .inl ⟨path, rfl, named path given⟩⟩
  · obtain ⟨chosen, chooses, same⟩ := Option.bind_eq_some_iff.mp parsed
    obtain ⟨path, isPath, rfl⟩ := Option.map_eq_some_iff.mp chooses
    cases same
    exact ⟨isFile, .inl ⟨path, rfl, file?_self isPath⟩⟩
  · rename_i inherited
    cases parsed
    exact ⟨isFile, .inr ⟨rfl, inherited⟩⟩

theorem command?_lookup {file : String} (isFile : file? file = some file) (id : String) :
    command? "lookup" ["--", file, id] = some (.lookup file id) := by
  simp [command?, rest?, isFile]

theorem attached?_config (path : String) :
    attached? ("--config=" ++ path) = some ("--config", path) := by
  have splits : Text.splitAtFirst ['='] ("config=".toList ++ path.toList) =
      some ("config".toList, path.toList) := rfl
  rw [attached?, String.toList_append]
  change ((Text.splitAtFirst ['='] ("config=".toList ++ path.toList)).map _) = _
  rw [splits, Option.map_some]
  change some ("--config", String.ofList path.toList) = _
  rw [String.ofList_toList]

/-- Whatever can be done with the file of a command line, any operation can be looked up near it
    with the same settings. -/
theorem exists_lookup_line {env : Environment} {line : List String} {config : Option String}
    {output : OutputFormat} {command : Command}
    (parsed : parse env line = some ⟨config, output, command⟩) (id : String) :
    ∃ asking format, parse env asking = some ⟨config, format, .lookup command.file id⟩ := by
  obtain ⟨isFile, ⟨path, rfl, isPath⟩ | ⟨rfl, inherited⟩⟩ := config_of_parse parsed
  · have sets : Options.setConfig {} path = some { config := some path } := by
      simp [Options.setConfig, isPath]
    have reads : readFrom {} ["--config=" ++ path, "lookup", "--", command.file, id] =
        some ({ config := some path }, .lookup command.file id) := by
      rw [readFrom_attached (attached?_config path)]
      change ((Options.setConfig {} path).bind fun o => readFrom o _) = _
      rw [sets, Option.bind_some, readFrom_command rfl rfl, command?_lookup isFile id]
      rfl
    exact ⟨["--config=" ++ path, "lookup", "--", command.file, id], .text, by simp [parse, reads]⟩
  · have reads : readFrom {} ["lookup", "--", command.file, id] =
        some ({}, .lookup command.file id) := by
      rw [readFrom_command rfl rfl, command?_lookup isFile id]
      rfl
    exact ⟨["lookup", "--", command.file, id], .text, by simp [parse, reads, inherited]⟩

end Arguments

/-! ## What a check warns of -/

namespace Check

open Text

/-- The steps of a document, in order. -/
def stepsOf (d : Document) : List Step :=
  d.workflows.flatMap (·.steps)

/-- The id of the operation that a step runs, without the blanks around it. -/
def operationIdOf? (s : Step) : Option String :=
  (s.operationId.map trimmed).filter fun id => !id.isEmpty

/-- The issue with a step that runs an unknown operation. -/
def unresolved (s : Step) (id : String) : Issue :=
  ⟨s.line, .unknownOperation (OperationId.bare id) s.stepId⟩

/-- The issue with the operation of a step, if it has one. -/
def unresolved? (index : OperationIndex) (s : Step) : Option Issue :=
  (operationIdOf? s).bind fun id =>
    if index.size ≠ 0 ∧ index.isFree (OperationId.bare id) then some (unresolved s id) else none

theorem operationProblems_eq (index : OperationIndex) (s : Step) :
    (operationProblems index s).map (⟨s.line, ·⟩) = (unresolved? index s).toList := by
  unfold operationProblems unresolved? operationIdOf?
  cases s.operationId with
  | none => rfl
  | some id =>
    rw [Option.map_some, Option.filter_some]
    dsimp only
    generalize trimmed id = id
    cases id.isEmpty with
    | true => rfl
    | false =>
      simp only [problemIf, unresolved, Bool.not_false, if_true, Option.bind_some, Bool.and_eq_true,
        bne_iff_ne, Bool.false_eq_true, if_false]
      split <;> rfl

theorem filter_warning_document_eq (index : OperationIndex) (d : Document) :
    (document index d).filter (isOf .warning) = (stepsOf d).filterMap (unresolved? index) := by
  rw [filter_warning_document, List.filterMap_eq_flatMap_toList, stepsOf, List.flatMap_assoc]
  simp only [operationProblems_eq]

/-- A step is warned about if its operation is unknown. -/
theorem unresolved_mem_document_iff {index : OperationIndex} (asked : index.size ≠ 0) {d : Document}
    {s : Step} (isStep : s ∈ stepsOf d) {id : String} (runs : operationIdOf? s = some id) :
    unresolved s id ∈ document index d ↔ index.find? (OperationId.bare id) = none := by
  have warning : isOf .warning (unresolved s id) := rfl
  have isWarning : unresolved s id ∈ document index d ↔
      unresolved s id ∈ (stepsOf d).filterMap (unresolved? index) := by
    rw [← filter_warning_document_eq, List.mem_filter]
    exact (and_iff_left warning).symm
  rw [isWarning, List.mem_filterMap, ← OperationIndex.isFree_iff]
  constructor
  · rintro ⟨other, -, warns⟩
    obtain ⟨otherId, -, warns⟩ := Option.bind_eq_some_iff.mp warns
    split at warns
    · rename_i unknown
      have same : OperationId.bare otherId = OperationId.bare id := by
        injection warns with same
        injection same with _ same
        injection same
      rw [← same]
      exact unknown.2
    · cases warns
  · intro free
    refine ⟨s, isStep, ?_⟩
    rw [unresolved?, runs, Option.bind_some, if_pos ⟨asked, free⟩]

end Check

/-! ## The two commands -/

namespace Command

open Arguments Check

/-- The same world at another time. -/
def World.later (world : World) (time : Nat) : World :=
  { world with now := { world.now with time := time } }

section

variable {world : World} {config : Option String} {file uri : String} {settings : Settings}
  {index : OperationIndex}

theorem IsBuilt.perform_lookup (built : IsBuilt world.now settings uri index)
    (format : OutputFormat) (id : String) :
    perform world.now format (Session.new settings) uri (.lookup file id) =
      match index.find? (OperationId.bare id) with
      | some operation => .ok (.text (Report.operation format operation), true)
      | none => .error (.unknownOperation (OperationId.bare id) file) := by
  obtain ⟨catalog, report, builds, rfl⟩ := built
  rw [perform, builds]
  rfl

theorem isBuilt_of_build {now : Moment} {catalog : Catalog} {report : IndexReport}
    (builds : (Catalog.empty settings.cache.lifetime).build now settings.discovery uri =
      (catalog, .ok report)) : IsBuilt now settings uri catalog.index := by
  have same : (Session.new settings).catalog.build now (Session.new settings).settings.discovery uri =
      (catalog, .ok report) := builds
  refine ⟨catalog, report, ?_, rfl⟩
  rw [build, same]
  rfl

/-- Near a uri that names a file there is an index, the same one at any time. -/
theorem exists_isBuilt {files : FileSystem} {path : List Char}
    (names : FileUri.toPath uri.toList = .ok path) (settings : Settings) :
    ∃ index : OperationIndex, index.WellFormed ∧ ∀ time, IsBuilt ⟨files, time⟩ settings uri index := by
  have finds : Discovery.discover files settings.discovery uri =
      .ok (Discovery.near files settings.discovery path) := Discovery.discover_of_toPath names
  generalize Discovery.near files settings.discovery path = uris at finds
  have spelled := Catalog.isSpelled_of_discover finds
  have hasRead := (Catalog.hasRead_empty ⟨files, 0⟩ settings.cache.lifetime).indexAll
    { discovered := uris.length } spelled
  refine ⟨_, hasRead.coherent.wellFormed, ?_⟩
  intro time
  have builds := @Catalog.build_of_discover ⟨files, time⟩ settings.discovery uri uris finds
    (Catalog.empty settings.cache.lifetime)
  rw [← Catalog.index_indexAll_empty { discovered := uris.length } spelled time]
  exact isBuilt_of_build builds

theorem run_of_lookup (starts : Starts world config file settings uri)
    (built : IsBuilt world.now settings uri index) {line : List String} {format : OutputFormat}
    {id : String} (asks : parse world.env line = some ⟨config, format, .lookup file id⟩) :
    run world line = match index.find? (OperationId.bare id) with
      | some operation => ⟨successCode, .text (Report.operation format operation), none⟩
      | none => failure format (.lookup file id) (.unknownOperation (OperationId.bare id) file) := by
  have done := (starts.attempt_eq format rfl).trans (built.perform_lookup format id)
  cases found : index.find? (OperationId.bare id) with
  | some operation =>
    simp only [found] at done
    simp only [run, asks, done, if_true]
  | none =>
    simp only [found] at done
    simp only [run, asks, done]
    cases format <;> rfl

end

/-- The warning about a step whose operation is nowhere described. -/
def notFound (s : Step) (id : String) : Finding where
  line := s.line
  column := 0
  message := "Operation '" ++ OperationId.bare id ++ "' used by step '" ++ s.stepId ++
    "' was not found in any indexed API description"
  severity := .warning

theorem finding_unresolved (s : Step) (id : String) : (unresolved s id).finding = notFound s id :=
  rfl

/-- What comes of checking a document with an index and what comes of looking up the operations of
    its steps near its file agree. -/
structure AgreesWithLookup (world : World) (config : Option String) (file : String) (d : Document)
    (index : OperationIndex) (format : OutputFormat) (checked : Outcome) : Prop where
  /-- A step is warned about if and only if its operation is reported missing. -/
  missing : ∀ s ∈ stepsOf d, ∀ id, operationIdOf? s = some id → ∀ line style,
    parse world.env line = some ⟨config, style, .lookup file id⟩ →
      (unresolved s id ∈ Check.document index d ↔
        ∃ e : Error, e.kind = .notFound ∧ run world line = failure style (.lookup file id) e)
  /-- The warning is printed. -/
  shown : ∀ s ∈ stepsOf d, ∀ id, operationIdOf? s = some id →
    unresolved s id ∈ Check.document index d →
      ∃ text, checked.printed = .text text ∧ Report.Shows file (notFound s id) format text
  /-- Otherwise the index has it under the id without the name of a source, and it is printed. -/
  found : ∀ s ∈ stepsOf d, ∀ id, operationIdOf? s = some id → ∀ line style,
    parse world.env line = some ⟨config, style, .lookup file id⟩ →
      (¬∃ e : Error, e.kind = .notFound ∧ run world line = failure style (.lookup file id) e) →
        ∃ operation text, index.find? (OperationId.bare id) = some operation ∧
          operation.operationId = OperationId.bare id ∧
          run world line = ⟨successCode, .text text, none⟩ ∧ Report.Names operation style text
  /-- There is one warning for each such step, in order, and no other. -/
  warnings : (Check.document index d).filter (isOf .warning) = (stepsOf d).filterMap fun s =>
    ((operationIdOf? s).filter fun id => decide (unresolved s id ∈ Check.document index d)).map
      (unresolved s)

theorem exitCode_failure (format : OutputFormat) (command : Command) (e : Error) :
    (failure format command e).exitCode = failureCode := by
  cases format <;> rfl

theorem agreesWithLookup {world : World} {config : Option String} {file uri : String}
    {settings : Settings} {index : OperationIndex} (starts : Starts world config file settings uri)
    (built : IsBuilt world.now settings uri index) (wellFormed : index.WellFormed)
    (asked : index.size ≠ 0) {d : Document} {format : OutputFormat} {checked : Outcome}
    (reports : Reports checked format file (Check.findings index d)) :
    AgreesWithLookup world config file d index format checked where
  missing := by
    intro s isStep id runs line style asks
    rw [unresolved_mem_document_iff asked isStep runs, run_of_lookup starts built asks]
    cases index.find? (OperationId.bare id) with
    | none => exact ⟨fun _ => ⟨_, rfl, rfl⟩, fun _ => rfl⟩
    | some operation =>
      refine ⟨nofun, ?_⟩
      rintro ⟨e, -, fails⟩
      have code := congrArg Outcome.exitCode fails
      rw [exitCode_failure] at code
      cases code
  shown := by
    intro s isStep id runs warned
    have listed : notFound s id ∈ Check.findings index d := by
      rw [← finding_unresolved]
      exact List.mem_map_of_mem warned
    exact ⟨_, reports.printed, reports.lists.shows listed⟩
  found := by
    intro s isStep id runs line style asks succeeds
    rw [run_of_lookup starts built asks] at succeeds ⊢
    cases found : index.find? (OperationId.bare id) with
    | none =>
      rw [found] at succeeds
      exact absurd ⟨_, rfl, rfl⟩ succeeds
    | some operation =>
      exact ⟨operation, _, rfl, wellFormed.keyed _ _ found, rfl,
        Report.names_operation style operation⟩
  warnings := by
    rw [filter_warning_document_eq]
    apply List.filterMap_congr
    intro s isStep
    rw [unresolved?]
    cases runs : operationIdOf? s with
    | none => rfl
    | some id =>
      have warned := unresolved_mem_document_iff asked isStep runs
      rw [← OperationIndex.isFree_iff] at warned
      simp only [Option.bind_some, Option.filter_some, decide_eq_true_eq, warned, ne_eq, asked,
        not_false_eq_true, true_and]
      split <;> rfl

/-- Checking a document and looking up the operations of its steps agree, at whatever times the
    two are done: the check prints what it finds with the index of the operations near the file,
    and once there are any, the steps that it warns about are those whose operations are reported
    missing, and all others are printed. -/
theorem validate_agrees_with_lookup (world : World) (time : Nat) {line : List String}
    {config : Option String} {format : OutputFormat} {file : String}
    (checks : parse world.env line = some ⟨config, format, .validate file false⟩) {d : Document}
    (read : documentOf world config file = .ok d) :
    ∃ index, indexOf world config file = .ok index ∧
      (run world line).exitCode = codeOf (.ok d) ∧
      Reports (run world line) format file (Check.findings index d) ∧
      (index.size ≠ 0 →
        AgreesWithLookup (world.later time) config file d index format (run world line)) ∧
      ∀ id, ∃ asking style, parse world.env asking = some ⟨config, style, .lookup file id⟩ := by
  obtain ⟨settings, uri, starts⟩ := starts_of_documentOf read
  cases names : FileUri.toPath uri.toList with
  | error fault =>
    rw [starts.documentOf_eq, document_new_of_error names] at read
    cases read
  | ok path =>
    obtain ⟨index, wellFormed, built⟩ := @exists_isBuilt uri world.now.files path names settings
    have builtNow : IsBuilt world.now settings uri index := built world.now.time
    have startsLater : Starts (world.later time) config file settings uri :=
      ⟨starts.loaded, starts.written⟩
    have done : attempt world ⟨config, format, .validate file false⟩ =
        .ok (verdict format file index d) := by
      rw [starts.attempt_eq format rfl, builtNow.perform_validate, ← starts.documentOf_eq, read]
      rfl
    have reports := reports_of_attempt checks done
    have isCode : (run world line).exitCode = codeOf (.ok d) := by rw [run_of_attempt checks done]
    exact ⟨index, starts.indexOf_eq builtNow, isCode, reports,
      fun asked => agreesWithLookup startsLater (built time) wellFormed asked reports,
      exists_lookup_line checks⟩

/-- The desk with a document whose first step runs an operation that is described beside it, and
    whose second step runs one that is not. -/
def errands : FileSystem :=
  let flow := "\x7b\"workflows\":[\x7b\"steps\":[\x7b\"operationId\":" ++
    "\" $sourceDescriptions.pets.getPet \"\x7d,\x7b\"operationId\":\"gone\"\x7d]\x7d]\x7d"
  { desk with
    root := FileTree.insert 1 (.file (Text.Utf8.encode flow.toList) 1) desk.root
      ["desk".toList, "flow.json".toList] }

/-- The first operation is looked up and printed; the second one is warned about. -/
theorem validate_agrees_with_lookup_on_errands :
    let world : World := ⟨⟨errands, 0⟩, fun _ => none⟩
    let checked := run world ["validate", "flow.json"]
    ∃ d index, documentOf world none "flow.json" = .ok d ∧
      (stepsOf d).map operationIdOf? = [some "$sourceDescriptions.pets.getPet", some "gone"] ∧
      indexOf world none "flow.json" = .ok index ∧ index.size = 1 ∧
      ((Check.document index d).filter (isOf .warning)).length = 1 ∧
      Reports checked .text "flow.json" (Check.findings index d) ∧
      AgreesWithLookup (world.later 5) none "flow.json" d index .text checked := by
  intro world checked
  have facts : ((documentOf world none "flow.json").toOption.bind fun d =>
      (indexOf world none "flow.json").toOption.map fun index =>
        ((stepsOf d).map operationIdOf?, index.size,
          ((Check.document index d).filter (isOf .warning)).length)) =
      some ([some "$sourceDescriptions.pets.getPet", some "gone"], 1, 1) := by decide +kernel
  cases read : documentOf world none "flow.json" with
  | error e =>
    rw [read] at facts
    cases facts
  | ok d =>
    have checks : parse world.env ["validate", "flow.json"] =
        some ⟨none, .text, .validate "flow.json" false⟩ := by decide +kernel
    obtain ⟨index, indexed, -, reports, agrees, -⟩ := validate_agrees_with_lookup world 5 checks read
    rw [read, indexed] at facts
    simp only [Except.toOption, Option.map_some, Option.bind_some, Option.some.injEq,
      Prod.mk.injEq] at facts
    obtain ⟨ids, size, warnings⟩ := facts
    exact ⟨d, index, rfl, ids, indexed, size, warnings, reports, agrees (by omega)⟩

end Command

end ApiWorkflow
