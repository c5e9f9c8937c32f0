import ApiWorkflow.Settings.Load

/-! # Arguments of the command line

Options stand in front of the command, except `--offline`, which belongs to one.
A double dash ends the options of a command.
-/

namespace ApiWorkflow

/-- How results are printed. -/
inductive OutputFormat where
  | text
  | json
  deriving Repr, DecidableEq, Inhabited

def OutputFormat.ofName? : String → Option OutputFormat
  | "text" => some .text
  | "json" => some .json
  | _ => none

/-- What the program is asked to do. -/
inductive Command where
  /-- Check a document, perhaps without looking for API descriptions. -/
  | validate (file : String) (offline : Bool)
  /-- List the operations near a document. -/
  | index (file : String)
  /-- Find an operation near a document. -/
  | lookup (file operationId : String)
  /-- Print a document. -/
  | model (file : String)
  deriving Repr, DecidableEq, Inhabited

def Command.name : Command → String
  | .validate .. => "validate"
  | .index _ => "index"
  | .lookup .. => "lookup"
  | .model _ => "model"

/-- A whole command line. -/
structure Arguments where
  config : Option String
  output : OutputFormat
  command : Command
  deriving Repr, DecidableEq, Inhabited

namespace Arguments

/-- Whether an argument looks like an option; a single dash does not. -/
def isOption (argument : String) : Bool :=
  match argument.toList with
  | '-' :: _ :: _ => true
  | _ => false

/-- The option of a command. -/
def offlineFlag : String := "--offline"

/-- What follows the name of a command: values, and whether `--offline` is given. -/
structure Rest where
  values : List String
  offline : Bool
  deriving Repr, DecidableEq, Inhabited

/-- Read what follows the name of a command. -/
def rest? (offline : Bool) : List String → Option Rest
  | [] => some ⟨[], offline⟩
  | argument :: arguments =>
    if argument = "--" then some ⟨arguments, offline⟩
    else if argument = offlineFlag then
      if offline then none else rest? true arguments
    else if isOption argument then none
    else (rest? offline arguments).map fun r => { r with values := argument :: r.values }

/-- A file has a name. -/
def file? (name : String) : Option String :=
  if name.isEmpty then none else some name

/-- The command of a name and what follows it. -/
def command? (name : String) (arguments : List String) : Option Command := do
  match name, (← rest? false arguments) with
  | "validate", ⟨[file], offline⟩ => pure (.validate (← file? file) offline)
  | "index", ⟨[file], false⟩ => pure (.index (← file? file))
  | "lookup", ⟨[file, id], false⟩ => pure (.lookup (← file? file) id)
  | "model", ⟨[file], false⟩ => pure (.model (← file? file))
  | _, _ => none

/-- The options in front of a command, as far as they are read. -/
structure Options where
  config : Option String := none
  output : Option OutputFormat := none
  deriving Repr, DecidableEq, Inhabited

/-- Set the path of the settings, once. -/
def Options.setConfig (o : Options) (value : String) : Option Options :=
  if o.config.isSome then none else (file? value).map fun path => { o with config := some path }

/-- Set the output format, once. -/
def Options.setOutput (o : Options) (value : String) : Option Options :=
  if o.output.isSome then none
  else (OutputFormat.ofName? value).map fun format => { o with output := some format }

/-- How an option is set, if there is one of that name. -/
def Options.setter? (name : String) : Option (Options → String → Option Options) :=
  if name = "--config" then some setConfig
  else if name = "--output" then some setOutput
  else none

/-- An argument cut at its first equals sign, if it is a long option with one. -/
def attached? (argument : String) : Option (String × String) :=
  match argument.toList with
  | '-' :: '-' :: cs =>
    (Text.splitAtFirst ['='] cs).map fun (name, value) =>
      (String.ofList ('-' :: '-' :: name), String.ofList value)
  | _ => none

/-- Read options, then a command. -/
def readFrom (o : Options) : List String → Option (Options × Command)
  | [] => none
  | argument :: arguments =>
    match attached? argument with
    | some (name, value) => do
      let set ← Options.setter? name
      readFrom (← set o value) arguments
    | none =>
      match Options.setter? argument, arguments with
      | some set, value :: arguments =>
        if isOption value then none else (set o value).bind fun o => readFrom o arguments
      | some _, [] => none
      | none, arguments => (command? argument arguments).map fun command => (o, command)

/-- The variable that stands for the option `--config`. -/
def configKey : String := "ARAZZO_CONFIG"

/-- Read the command line; none if it makes no sense. -/
def parse (env : Environment) (arguments : List String) : Option Arguments := do
  let (o, command) ← readFrom {} arguments
  let config ← match o.config, env configKey with
    | some path, _ => some (some path)
    | none, some path => (file? path).map some
    | none, none => some none
  pure ⟨config, o.output.getD .text, command⟩

end Arguments

end ApiWorkflow
