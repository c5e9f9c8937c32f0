import ApiWorkflow.Command.Run
import ApiWorkflow.Proofs.Check.Severity
import ApiWorkflow.Proofs.Command.Output
import ApiWorkflow.Proofs.Description.Discovery
import ApiWorkflow.Proofs.File.Difference

/-! # The verdict on a document

Checking a document with the API descriptions near it and checking it without them end with
the same exit code, the same errors and, if the command fails, the same failure. So the
exit code depends on the settings and the document alone, whatever becomes of other files.
-/

namespace ApiWorkflow

/-! ## Command lines -/

namespace Arguments

/-- Options of the command line and nothing else: each is one argument with an equals
    sign in it, or a name with its value behind it. -/
inductive AreOptions : List String → Prop where
  | nil : AreOptions []
  | attached {argument : String} {pair : String × String} {rest : List String} :
    attached? argument = some pair → AreOptions rest → AreOptions (argument :: rest)
  | apart {name value : String} {rest : List String} : attached? name = none →
    (Options.setter? name).isSome → AreOptions rest → AreOptions (name :: value :: rest)

theorem readFrom_attached {argument : String} {pair : String × String}
    (isAttached : attached? argument = some pair) (o : Options) (rest : List String) :
    readFrom o (argument :: rest) =
      (Options.setter? pair.1).bind fun set => (set o pair.2).bind fun o => readFrom o rest := by
  rw [readFrom.eq_def]
  simp only [isAttached]
  rfl

theorem readFrom_apart {name : String} {set : Options → String → Option Options}
    (notAttached : attached? name = none) (known : Options.setter? name = some set) (o : Options)
    (value : String) (rest : List String) :
    readFrom o (name :: value :: rest) =
      if isOption value then none else (set o value).bind fun o => readFrom o rest := by
  rw [readFrom.eq_def]
  simp only [notAttached, known]

theorem readFrom_command {name : String} (notAttached : attached? name = none)
    (unknown : Options.setter? name = none) (o : Options) (rest : List String) :
    readFrom o (name :: rest) = (command? name rest).map fun command => (o, command) := by
  rw [readFrom.eq_def]
  simp only [notAttached, unknown]

/-- Options are read before everything behind them, or are themselves at fault. -/
theorem AreOptions.readFrom_append {options : List String} (areOptions : AreOptions options)
    (o : Options) :
    (∀ rest, readFrom o (options ++ rest) = none) ∨
      ∃ set, ∀ rest, readFrom o (options ++ rest) = readFrom set rest := by
  induction areOptions generalizing o with
  | nil => exact .inr ⟨o, fun rest => rfl⟩
  | @attached argument pair options isAttached _ ih =>
    simp only [List.cons_append, readFrom_attached isAttached]
    cases Options.setter? pair.1 with
    | none => exact .inl fun rest => rfl
    | some set =>
      simp only [Option.bind_some]
      cases set o pair.2 with
      | none => exact .inl fun rest => rfl
      | some o => exact ih o
  | @apart name value options notAttached isKnown _ ih =>
    obtain ⟨set, known⟩ := Option.isSome_iff_exists.mp isKnown
    simp only [List.cons_append, readFrom_apart notAttached known]
    by_cases dashed : isOption value
    · exact .inl fun rest => if_pos dashed
    · simp only [if_neg dashed]
      cases set o value with
      | none => exact .inl fun rest => rfl
      | some o => exact ih o

/-- A file that a command can be given without a double dash before it. -/
def isPlainFile (file : String) : Bool :=
  !isOption file && !file.isEmpty

theorem command?_validate (offline : Bool) (file : String) :
    command? "validate" (if offline then [offlineFlag, file] else [file]) =
      if isPlainFile file then some (.validate file offline) else none := by
  have rest : rest? false (if offline then [offlineFlag, file] else [file]) = rest? offline [file] := by
    cases offline <;> rfl
  rw [command?, rest]
  by_cases dashed : isOption file
  · have notPlain : isPlainFile file = false := by simp [isPlainFile, dashed]
    have noValue : rest? offline [file] = none ∨ ∃ given, rest? offline [file] = some ⟨[], given⟩ := by
      by_cases ends : file = "--"
      · exact .inr ⟨offline, by simp [rest?, ends]⟩
      by_cases flag : file = offlineFlag
      · cases offline with
        | true => exact .inl (by simp [rest?, flag, offlineFlag])
        | false => exact .inr ⟨true, by simp [rest?, flag, offlineFlag]⟩
      · exact .inl (by simp [rest?, ends, flag, dashed])
    rw [notPlain]
    obtain read | ⟨given, read⟩ := noValue <;> rw [read] <;> rfl
  · have ends : file ≠ "--" := by rintro rfl; exact dashed rfl
    have flag : file ≠ offlineFlag := by rintro rfl; exact dashed rfl
    have read : rest? offline [file] = some ⟨[file], offline⟩ := by
      simp [rest?, ends, flag, dashed]
    rw [read]
    by_cases empty : file.isEmpty
    · have notPlain : isPlainFile file = false := by simp [isPlainFile, empty]
      have noFile : file? file = none := if_pos empty
      simp [noFile, notPlain]
    · have plain : isPlainFile file = true := by simp [isPlainFile, dashed, empty]
      have isFile : file? file = some file := if_neg empty
      simp [isFile, plain]

end Arguments

namespace Command

open Arguments

/-- The command line that checks a file. -/
def validateLine (options : List String) (offline : Bool) (file : String) : List String :=
  options ++ "validate" :: if offline then [offlineFlag, file] else [file]

theorem parse_validateLine {options : List String} (areOptions : AreOptions options)
    (env : Environment) (file : String) :
    (∀ offline, parse env (validateLine options offline file) = none) ∨
      ∃ config output, ∀ offline, parse env (validateLine options offline file) =
        some ⟨config, output, .validate file offline⟩ := by
  obtain atFault | ⟨o, read⟩ := areOptions.readFrom_append {}
  · exact .inl fun offline => by rw [parse, validateLine, atFault]; rfl
  have command (offline : Bool) : readFrom {} (validateLine options offline file) =
      if isPlainFile file then some (o, .validate file offline) else none := by
    rw [validateLine, read, readFrom_command rfl rfl, command?_validate]
    split <;> rfl
  by_cases plain : isPlainFile file
  · simp only [parse, command, if_pos plain]
    cases given : o.config with
    | some path => exact .inr ⟨some path, o.output.getD .text, fun offline => by simp [given]⟩
    | none =>
      cases inherited : env configKey with
      | none => exact .inr ⟨none, o.output.getD .text, fun offline => by simp [given]⟩
      | some path =>
        cases named : file? path with
        | none => exact .inl fun offline => by simp [given, named]
        | some path => exact .inr ⟨some path, o.output.getD .text, fun offline => by simp [given, named]⟩
  · exact .inl fun offline => by rw [parse, command, if_neg plain]; rfl

/-! ## The document of a command -/

/-- The document that a command is about. -/
def documentOf (world : World) (config : Option String) (file : String) : Except Error Document := do
  let files := world.now.files
  let settings ← (Settings.load files world.env config).mapError .setting
  let uri ← uriOf files file
  (Session.new settings).document files uri

/-- The index of the operations near the file of a command. -/
def indexOf (world : World) (config : Option String) (file : String) :
    Except Error OperationIndex := do
  let files := world.now.files
  let settings ← (Settings.load files world.env config).mapError .setting
  let uri ← uriOf files file
  let (s, _) ← build world.now (Session.new settings) uri
  pure s.catalog.index

/-- What is printed of a document that was checked with an index, and whether it is in
    order. -/
def verdict (format : OutputFormat) (file : String) (index : OperationIndex) (d : Document) :
    Printed × Bool :=
  let found := Check.findings index d
  (.text (Report.findings format file found), !found.any Finding.isError)

/-- A command starts with some settings and with the uri of its file. -/
structure Starts (world : World) (config : Option String) (file : String) (settings : Settings)
    (uri : String) : Prop where
  loaded : (Settings.load world.now.files world.env config).mapError Error.setting = .ok settings
  written : uriOf world.now.files file = .ok uri

/-- An index is the one that is built near a uri. -/
def IsBuilt (now : Moment) (settings : Settings) (uri : String) (index : OperationIndex) : Prop :=
  ∃ catalog report, build now (Session.new settings) uri =
    .ok ({ Session.new settings with catalog := catalog }, report) ∧ catalog.index = index

section

variable {world : World} {config : Option String} {file uri : String} {settings : Settings}
  {index : OperationIndex}

theorem Starts.attempt_eq (starts : Starts world config file settings uri) (format : OutputFormat)
    {command : Command} (about : command.file = file) :
    attempt world ⟨config, format, command⟩ =
      perform world.now format (Session.new settings) uri command := by
  simp only [attempt, starts.loaded, about, starts.written, bind, Except.bind]

theorem Starts.documentOf_eq (starts : Starts world config file settings uri) :
    documentOf world config file = (Session.new settings).document world.now.files uri := by
  simp only [documentOf, starts.loaded, starts.written, bind, Except.bind]

theorem Starts.indexOf_eq (starts : Starts world config file settings uri)
    (built : IsBuilt world.now settings uri index) : indexOf world config file = .ok index := by
  obtain ⟨catalog, report, builds, rfl⟩ := built
  simp only [indexOf, starts.loaded, starts.written, builds, bind, Except.bind]
  rfl

theorem starts_of_documentOf {d : Document} (read : documentOf world config file = .ok d) :
    ∃ settings uri, Starts world config file settings uri := by
  cases loaded : (Settings.load world.now.files world.env config).mapError Error.setting with
  | error e =>
    simp only [documentOf, loaded, bind, Except.bind] at read
    cases read
  | ok settings =>
    cases written : uriOf world.now.files file with
    | error e =>
      simp only [documentOf, loaded, written, bind, Except.bind] at read
      cases read
    | ok uri => exact ⟨settings, uri, loaded, written⟩

theorem IsBuilt.perform_validate (built : IsBuilt world.now settings uri index)
    (format : OutputFormat) :
    perform world.now format (Session.new settings) uri (.validate file false) =
      verdict format file index <$> (Session.new settings).document world.now.files uri := by
  obtain ⟨catalog, report, builds, rfl⟩ := built
  rw [perform, builds]
  rfl

end

theorem isBuilt_of_toPath {uri : String} {path : List Char}
    (names : FileUri.toPath uri.toList = .ok path) (now : Moment) (settings : Settings) :
    ∃ index, IsBuilt now settings uri index := by
  obtain ⟨catalog, report, builds⟩ : ∃ catalog report, build now (Session.new settings) uri =
      .ok ({ Session.new settings with catalog := catalog }, report) := by
    rw [build, Catalog.build, Discovery.discover_of_toPath names]
    exact ⟨_, _, rfl⟩
  exact ⟨catalog.index, catalog, report, builds, rfl⟩

theorem document_new_of_error {uri : String} {fault : FileUri.Fault}
    (names : FileUri.toPath uri.toList = .error fault) (files : FileSystem) (settings : Settings) :
    (Session.new settings).document files uri = .error (.badUri fault) := by
  have noText : (Session.new settings).text? uri = none := rfl
  rw [Session.document, Session.textOf, noText, names]
  rfl

theorem perform_offline (now : Moment) (format : OutputFormat) (settings : Settings)
    (uri file : String) :
    perform now format (Session.new settings) uri (.validate file true) =
      verdict format file {} <$> (Session.new settings).document now.files uri :=
  rfl

section

variable {world : World} {config : Option String} {file : String}

theorem attempt_online {d : Document} (read : documentOf world config file = .ok d)
    (output : OutputFormat) :
    ∃ index, indexOf world config file = .ok index ∧
      attempt world ⟨config, output, .validate file false⟩ = .ok (verdict output file index d) := by
  obtain ⟨settings, uri, starts⟩ := starts_of_documentOf read
  rw [starts.documentOf_eq] at read
  cases names : FileUri.toPath uri.toList with
  | error fault =>
    rw [document_new_of_error names] at read
    cases read
  | ok path =>
    obtain ⟨index, built⟩ := isBuilt_of_toPath names world.now settings
    refine ⟨index, starts.indexOf_eq built, ?_⟩
    rw [starts.attempt_eq output rfl, built.perform_validate, read]
    rfl

theorem attempt_offline {d : Document} (read : documentOf world config file = .ok d)
    (output : OutputFormat) :
    attempt world ⟨config, output, .validate file true⟩ = .ok (verdict output file {} d) := by
  obtain ⟨settings, uri, starts⟩ := starts_of_documentOf read
  rw [starts.documentOf_eq] at read
  rw [starts.attempt_eq output rfl, perform_offline, read]
  rfl

theorem attempt_of_error {e : Error} (fails : documentOf world config file = .error e)
    (output : OutputFormat) (offline : Bool) :
    attempt world ⟨config, output, .validate file offline⟩ = .error e := by
  cases loaded : (Settings.load world.now.files world.env config).mapError Error.setting with
  | error e =>
    simp only [documentOf, loaded, bind, Except.bind] at fails
    cases fails
    simp only [attempt, loaded, bind, Except.bind]
  | ok settings =>
    cases written : uriOf world.now.files file with
    | error e =>
      simp only [documentOf, loaded, written, bind, Except.bind] at fails
      cases fails
      simp only [attempt, loaded, Command.file, written, bind, Except.bind]
    | ok uri =>
      have starts : Starts world config file settings uri := ⟨loaded, written⟩
      rw [starts.documentOf_eq] at fails
      rw [starts.attempt_eq output rfl]
      cases offline with
      | true =>
        rw [perform_offline, fails]
        rfl
      | false =>
        cases names : FileUri.toPath uri.toList with
        | error fault =>
          have unbuilt : build world.now (Session.new settings) uri = .error (.badUri fault) := by
            rw [build, Catalog.build, Discovery.discover, names]
            rfl
          rw [document_new_of_error names] at fails
          cases fails
          rw [perform, unbuilt]
          rfl
        | ok path =>
          obtain ⟨index, built⟩ := isBuilt_of_toPath names world.now settings
          rw [built.perform_validate, fails]
          rfl

end

/-! ## Exit codes -/

theorem filter_isError_findings (index : OperationIndex) (d : Document) :
    (Check.findings index d).filter Finding.isError = Check.findings {} d := by
  have errors := Check.filter_findings .error index d
  have nothing : ({} : OperationIndex).size = 0 := rfl
  rw [Check.filter_error_document nothing] at errors
  exact errors

theorem any_isError_findings (index : OperationIndex) (d : Document) :
    (Check.findings index d).any Finding.isError = (Check.findings {} d).any Finding.isError := by
  rw [← filter_isError_findings index d, List.any_filter]
  simp only [Bool.and_self]

/-- The exit code that a document gets, if there is one. -/
def codeOf : Except Error Document → Nat
  | .error _ => failureCode
  | .ok d => if (Check.findings {} d).any Finding.isError then errorsCode else successCode

theorem codeOf_ok_cases (d : Document) : codeOf (.ok d) = errorsCode ∨ codeOf (.ok d) = successCode := by
  rw [codeOf]
  split
  · exact .inl rfl
  · exact .inr rfl

/-- How a failure of a command is reported. -/
def failure (output : OutputFormat) (command : Command) (e : Error) : Outcome :=
  match output with
  | .text => ⟨failureCode, .text "", some e.message⟩
  | .json => ⟨failureCode, .failure (failureJson command e), none⟩

section

variable {world : World} {arguments : List String} {config : Option String} {output : OutputFormat}
  {file : String} {offline : Bool}

theorem run_of_none (unreadable : parse world.env arguments = none) :
    run world arguments = ⟨failureCode, .text "", none⟩ := by
  rw [run, unreadable]

theorem run_of_attempt
    (parsed : parse world.env arguments = some ⟨config, output, .validate file offline⟩)
    {d : Document} {index : OperationIndex}
    (done : attempt world ⟨config, output, .validate file offline⟩ =
      .ok (verdict output file index d)) :
    run world arguments =
      ⟨codeOf (.ok d), .text (Report.findings output file (Check.findings index d)), none⟩ := by
  have decided : attempt world ⟨config, output, .validate file offline⟩ =
      .ok (.text (Report.findings output file (Check.findings index d)),
        !(Check.findings {} d).any Finding.isError) := by
    rw [done, ← any_isError_findings index d]
    rfl
  simp only [run, parsed, decided, codeOf]
  cases (Check.findings {} d).any Finding.isError <;> rfl

theorem run_of_error
    (parsed : parse world.env arguments = some ⟨config, output, .validate file offline⟩)
    {e : Error} (fails : documentOf world config file = .error e) :
    run world arguments = failure output (.validate file false) e := by
  simp only [run, parsed, attempt_of_error fails]
  cases output <;> rfl

/-- The exit code depends on the document alone. -/
theorem exitCode_of_parse
    (parsed : parse world.env arguments = some ⟨config, output, .validate file false⟩) :
    (run world arguments).exitCode = codeOf (documentOf world config file) := by
  cases read : documentOf world config file with
  | ok d =>
    obtain ⟨index, -, done⟩ := attempt_online read output
    rw [run_of_attempt parsed done]
  | error e =>
    rw [run_of_error parsed read]
    cases output <;> rfl

end

/-! ## Other files -/

/-- The paths of the files that a command reads for itself: its settings and its
    document. -/
def Reads (world : World) (arguments : List String) (path : List Char) : Prop :=
  ∃ parsed, parse world.env arguments = some parsed ∧
    (parsed.config = some (String.ofList path) ∨
      ∃ uri, uriOf world.now.files parsed.command.file = .ok uri ∧
        FileUri.toPath uri.toList = .ok path)

theorem toOption_eq_cases {ε α : Type} {x y : Except ε α} (same : x.toOption = y.toOption) :
    (∃ a, x = .ok a ∧ y = .ok a) ∨ ∃ e e', x = .error e ∧ y = .error e' := by
  cases x with
  | ok a =>
    cases y with
    | ok b => cases same; exact .inl ⟨a, rfl, rfl⟩
    | error e => cases same
  | error e =>
    cases y with
    | ok b => cases same
    | error e' => exact .inr ⟨e, e', rfl, rfl⟩

theorem toOption_bind_eq {ε α β : Type} {x y : Except ε α} {f g : α → Except ε β}
    (same : x.toOption = y.toOption) (alike : ∀ a, x = .ok a → (f a).toOption = (g a).toOption) :
    (x >>= f).toOption = (y >>= g).toOption := by
  obtain ⟨a, rfl, rfl⟩ | ⟨e, e', rfl, rfl⟩ := toOption_eq_cases same
  · exact alike a rfl
  · rfl

theorem codeOf_eq_of_toOption {left right : Except Error Document}
    (same : left.toOption = right.toOption) : codeOf left = codeOf right := by
  obtain ⟨d, rfl, rfl⟩ | ⟨e, e', rfl, rfl⟩ := toOption_eq_cases same <;> rfl

theorem toOption_mapError {ε ε' α : Type} (f : ε → ε') (x : Except ε α) :
    (x.mapError f).toOption = x.toOption := by
  cases x <;> rfl

theorem ofFile_toOption_eq {files others : FileSystem} {path : String}
    (same : (files.readText path.toList).toOption = (others.readText path.toList).toOption) :
    (Settings.ofFile files path).toOption = (Settings.ofFile others path).toOption := by
  unfold Settings.ofFile
  obtain ⟨text, left, right⟩ | ⟨e, e', left, right⟩ := toOption_eq_cases same <;> rw [left, right]
  rfl

theorem load_toOption_eq {files others : FileSystem} {env : Environment} {config : Option String}
    (same : ∀ path, config = some path →
      (files.readText path.toList).toOption = (others.readText path.toList).toOption) :
    (Settings.load files env config).toOption = (Settings.load others env config).toOption := by
  cases config with
  | none => rfl
  | some path => exact toOption_bind_eq (ofFile_toOption_eq (same path rfl)) (fun _ _ => rfl)

theorem document_toOption_eq {files others : FileSystem} {uri : String} (s : Session)
    (same : ∀ path, FileUri.toPath uri.toList = .ok path →
      (files.readText path).toOption = (others.readText path).toOption) :
    (s.document files uri).toOption = (s.document others uri).toOption := by
  refine toOption_bind_eq ?_ (fun _ _ => rfl)
  unfold Session.textOf
  cases s.text? uri with
  | some text => rfl
  | none =>
    cases names : FileUri.toPath uri.toList with
    | error fault => rfl
    | ok path =>
      obtain ⟨text, left, right⟩ | ⟨e, e', left, right⟩ := toOption_eq_cases (same path names) <;>
        simp only [left, right]
      rfl

/-- A command does not see what becomes of files that it does not read for itself. -/
theorem documentOf_toOption_eq {world other : World} {arguments : List String} {parsed : Arguments}
    (parses : parse world.env arguments = some parsed) (sameEnv : other.env = world.env)
    {changed : List (List Char) → Prop}
    (differ : FileSystem.DifferAt changed world.now.files other.now.files)
    (kept : ∀ path, Reads world arguments path →
      FileSystem.Avoids changed world.now.files path ∧
        FileSystem.Avoids changed other.now.files path) :
    (documentOf world parsed.config parsed.command.file).toOption =
      (documentOf other parsed.config parsed.command.file).toOption := by
  have sameText {path : List Char} (reads : Reads world arguments path) :
      (world.now.files.readText path).toOption = (other.now.files.readText path).toOption :=
    differ.readText_toOption (kept path reads).1 (kept path reads).2
  have sameUri : uriOf world.now.files parsed.command.file = uriOf other.now.files parsed.command.file := by
    simp only [uriOf, FileSystem.workPath, differ.workDir]
  unfold documentOf
  rw [sameEnv]
  refine toOption_bind_eq ?_ ?_
  · rw [toOption_mapError, toOption_mapError]
    apply load_toOption_eq
    intro path isConfig
    refine sameText ⟨parsed, parses, .inl ?_⟩
    rw [isConfig, String.ofList_toList]
  · intro settings _
    refine toOption_bind_eq (congrArg Except.toOption sameUri) ?_
    intro uri written
    apply document_toOption_eq
    intro path names
    exact sameText ⟨parsed, parses, .inr ⟨uri, written, names⟩⟩

/-- A run prints what was found in a file, and nothing else. -/
structure Reports (outcome : Outcome) (format : OutputFormat) (file : String)
    (found : List Finding) : Prop where
  printed : outcome.printed = .text (Report.findings format file found)
  lists : Report.Lists file found format (Report.findings format file found)
  failed : outcome.failed = none

theorem reports_of_attempt {world : World} {arguments : List String} {config : Option String}
    {format : OutputFormat} {file : String} {offline : Bool} {index : OperationIndex} {d : Document}
    (parsed : parse world.env arguments = some ⟨config, format, .validate file offline⟩)
    (done : attempt world ⟨config, format, .validate file offline⟩ =
      .ok (verdict format file index d)) :
    Reports (run world arguments) format file (Check.findings index d) := by
  rw [run_of_attempt parsed done]
  exact ⟨rfl, Report.lists_findings format file _, rfl⟩

/-- Two command lines that check a file come to the same: one exit code, one failure if they fail,
    and if they do not, reports of what is found with the descriptions near the file and without
    them, with the same errors. -/
structure SameVerdict (world : World) (file : String) (online offline : List String) : Prop where
  exitCode : (run world online).exitCode = (run world offline).exitCode
  isCode : (run world online).exitCode ∈ [successCode, errorsCode, failureCode]
  failure : (run world online).exitCode = failureCode → run world online = run world offline
  errors : (run world online).exitCode ≠ failureCode → ∃ config format d index,
    parse world.env online = some ⟨config, format, .validate file false⟩ ∧
    documentOf world config file = .ok d ∧ indexOf world config file = .ok index ∧
    Reports (run world online) format file (Check.findings index d) ∧
    Reports (run world offline) format file (Check.findings {} d) ∧
    (Check.findings index d).filter Finding.isError = (Check.findings {} d).filter Finding.isError

theorem SameVerdict.of_failure {world : World} {file : String} {online offline : List String}
    (fails : (run world online).exitCode = failureCode)
    (same : run world online = run world offline) : SameVerdict world file online offline where
  exitCode := congrArg Outcome.exitCode same
  isCode := by simp [fails]
  failure := fun _ => same
  errors := fun succeeds => absurd fails succeeds

theorem sameVerdict_of_parse {world : World} {online offline : List String} {config : Option String}
    {output : OutputFormat} {file : String}
    (onlineParsed : parse world.env online = some ⟨config, output, .validate file false⟩)
    (offlineParsed : parse world.env offline = some ⟨config, output, .validate file true⟩) :
    SameVerdict world file online offline := by
  cases read : documentOf world config file with
  | error e =>
    have runsOnline := run_of_error onlineParsed read
    have runsOffline := run_of_error offlineParsed read
    refine .of_failure ?_ (runsOnline.trans runsOffline.symm)
    rw [runsOnline]
    cases output <;> rfl
  | ok d =>
    obtain ⟨index, indexed, done⟩ := attempt_online read output
    have doneOffline := attempt_offline read output
    have runsOnline := run_of_attempt onlineParsed done
    have runsOffline := run_of_attempt offlineParsed doneOffline
    have isCode : (run world online).exitCode = codeOf (.ok d) := by rw [runsOnline]
    have codes := codeOf_ok_cases d
    have notFailure : codeOf (.ok d) ≠ failureCode := by
      rcases codes with isCode | isCode <;> rw [isCode] <;> decide
    refine ⟨?_, ?_, fun fails => absurd (isCode.symm.trans fails) notFailure, fun _ => ?_⟩
    · rw [runsOnline, runsOffline]
    · rw [isCode]
      rcases codes with isCode | isCode <;> rw [isCode] <;> decide
    · refine ⟨config, output, d, index, onlineParsed, read, indexed,
        reports_of_attempt onlineParsed done, reports_of_attempt offlineParsed doneOffline, ?_⟩
      rw [filter_isError_findings, filter_isError_findings]

/-- Checking a document with the descriptions near it and without them ends with one
    verdict, which no other file than the settings and the document can change. -/
theorem validate_online_eq_offline (world : World) {options : List String}
    (areOptions : AreOptions options) (file : String) :
    SameVerdict world file (options ++ ["validate", file])
      (options ++ ["validate", "--offline", file]) ∧
    ∀ (changed : List (List Char) → Prop) (other : World), other.env = world.env →
      FileSystem.DifferAt changed world.now.files other.now.files →
      (∀ path, Reads world (options ++ ["validate", file]) path →
        FileSystem.Avoids changed world.now.files path ∧
          FileSystem.Avoids changed other.now.files path) →
      (run other (options ++ ["validate", file])).exitCode =
        (run world (options ++ ["validate", file])).exitCode := by
  obtain unreadable | ⟨config, output, parsed⟩ := parse_validateLine areOptions world.env file
  · have online : parse world.env (options ++ ["validate", file]) = none := unreadable false
    have offline : parse world.env (options ++ ["validate", "--offline", file]) = none :=
      unreadable true
    constructor
    · refine .of_failure ?_ ((run_of_none online).trans (run_of_none offline).symm)
      rw [run_of_none online]
    · intro changed other sameEnv _ _
      rw [run_of_none online, run_of_none (sameEnv ▸ online)]
  · have online : parse world.env (options ++ ["validate", file]) =
        some ⟨config, output, .validate file false⟩ := parsed false
    have offline : parse world.env (options ++ ["validate", "--offline", file]) =
        some ⟨config, output, .validate file true⟩ := parsed true
    constructor
    · exact sameVerdict_of_parse online offline
    · intro changed other sameEnv differ kept
      have alike := documentOf_toOption_eq online sameEnv differ kept
      rw [exitCode_of_parse online, exitCode_of_parse (sameEnv ▸ online)]
      exact (codeOf_eq_of_toOption alike).symm

/-- A directory with a document and the description of an API beside it. -/
def desk : FileSystem :=
  let flow := "\x7b\"workflows\":[\x7b\"workflowId\":\"w\",\"steps\":[\x7b\"stepId\":\"s\"," ++
    "\"operationId\":\"gone\"\x7d]\x7d]\x7d"
  let pets := "\x7b\"openapi\":\"3\",\"paths\":\x7b\"/p\":\x7b\"get\":" ++
    "\x7b\"operationId\":\"getPet\"\x7d\x7d\x7d\x7d"
  { root := .dir 0 [("desk".toList, .dir 0
      [("flow.json".toList, .file (Text.Utf8.encode flow.toList) 0),
        ("pets.json".toList, .file (Text.Utf8.encode pets.toList) 0)])]
    workDir := ["desk".toList] }

/-- Where the description is. -/
def petsPlace : List (List Char) :=
  ["desk".toList, "pets.json".toList]

theorem reads_on_desk {path : List Char}
    (reads : Reads ⟨⟨desk, 0⟩, fun _ => none⟩ ["--output", "json", "validate", "flow.json"] path) :
    path = "/desk/flow.json".toList := by
  obtain ⟨parsed, parses, reads⟩ := reads
  have same : some parsed = some ⟨none, .json, .validate "flow.json" false⟩ :=
    parses.symm.trans (by decide +kernel)
  cases same
  rcases reads with config | ⟨uri, written, names⟩
  · cases config
  · have isUri : uriOf desk "flow.json" = .ok "file:///desk/flow.json" := by rfl
    cases isUri.symm.trans written
    have isPath : FileUri.toPath "file:///desk/flow.json".toList = .ok "/desk/flow.json".toList := by
      decide +kernel
    exact (Except.ok.inj (isPath.symm.trans names)).symm

/-- The operation of the document is unknown among those described beside it, which no
    one notices without them; the document lacks its header in any case. -/
theorem validate_on_desk :
    let world : World := ⟨⟨desk, 0⟩, fun _ => none⟩
    let changed (root : FileTree) : World := ⟨⟨{ desk with root := root }, 1⟩, fun _ => none⟩
    let options := ["--output", "json"]
    let line := options ++ ["validate", "flow.json"]
    AreOptions options ∧ (run world line).exitCode = errorsCode ∧
      SameVerdict world "flow.json" line (options ++ ["validate", "--offline", "flow.json"]) ∧
      (run (changed (desk.root.erase 1 petsPlace)) line).exitCode = (run world line).exitCode ∧
      (run (changed (FileTree.insert 1 (.file [] 1) desk.root petsPlace)) line).exitCode =
        (run world line).exitCode := by
  intro world changed options line
  have areOptions : AreOptions options := .apart rfl rfl .nil
  obtain ⟨same, indifferent⟩ := validate_online_eq_offline world areOptions "flow.json"
  have flat : FileSystem.AtMostFile (desk.root.at? petsPlace) := .file
  have apart {files : FileSystem}
      (located : files.locate "/desk/flow.json".toList = .ok ["flow.json".toList, "desk".toList]) :
      FileSystem.Avoids (· = petsPlace) files "/desk/flow.json".toList := by
    intro goal found
    cases located.symm.trans found
    decide
  refine ⟨areOptions, by decide +kernel, same, ?_, ?_⟩
  · have differ := FileSystem.differAt_erase ["desk".toList] _ rfl flat 1
    refine indifferent _ (changed _) rfl differ ?_
    intro path reads
    rw [reads_on_desk reads]
    exact ⟨apart (by decide +kernel), apart (by decide +kernel)⟩
  · have differ := FileSystem.differAt_insert ["desk".toList] _ rfl flat 1 1 []
    refine indifferent _ (changed _) rfl differ ?_
    intro path reads
    rw [reads_on_desk reads]
    exact ⟨apart (by decide +kernel), apart (by decide +kernel)⟩

end Command

end ApiWorkflow
