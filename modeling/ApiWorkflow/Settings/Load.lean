import ApiWorkflow.Error
import ApiWorkflow.Settings.Toml
import ApiWorkflow.Text.Digits

/-! # Loading settings

Settings come from a file, or are the default ones; then variables of the
environment replace some of them; in the end they are checked.
-/

namespace ApiWorkflow

/-- The variables of the environment. -/
abbrev Environment := String → Option String

namespace Settings

open Text

/-- The variables that replace settings. -/
def logLevelKey : String := "ARAZZO_LOG_LEVEL"
def lifetimeKey : String := "ARAZZO_CACHE_TTL_SECS"
def maxDepthKey : String := "ARAZZO_DISCOVERY_MAX_DEPTH"

/-- The value of a variable without blanks around it; a blank value counts as none. -/
def valueIn (env : Environment) (key : String) : Option String :=
  match env key with
  | some value => if isBlankString value then none else some (trimmed value)
  | none => none

/-- A natural number of 64 bits, perhaps with a plus sign. -/
def natural? (cs : List Char) : Option Nat :=
  let digits := match cs with
    | '+' :: cs => cs
    | cs => cs
  (numeral? 10 digits).filter (· < wordBound 64)

/-- The number in a variable, if it has one. -/
def numberIn (env : Environment) (key : String) : Except SettingFault (Option Nat) :=
  match valueIn env key with
  | none => .ok none
  | some value =>
    match natural? value.toList with
    | some n => .ok (some n)
    | none => .error (.notNumber key value)

/-- Replace the settings for which there are variables. -/
def override (env : Environment) (s : Settings) : Except SettingFault Settings := do
  let lifetime ← numberIn env lifetimeKey
  let maxDepth ← numberIn env maxDepthKey
  pure { s with
    logLevel := (valueIn env logLevelKey).getD s.logLevel
    cache := { s.cache with lifetime := lifetime.getD s.cache.lifetime }
    discovery := { s.discovery with maxDepth := maxDepth.getD s.discovery.maxDepth } }

/-- Whether an extension is given without its dot. -/
def isBareExtension (extension : String) : Bool :=
  match trim extension.toList with
  | [] => false
  | c :: _ => c != '.'

/-- What is wrong with settings, if anything is. -/
def fault? (s : Settings) : Option SettingFault :=
  if s.cache.lifetime = 0 then some .zeroLifetime
  else if greatestSearchDepth < s.discovery.maxDepth then some (.tooDeep s.discovery.maxDepth)
  else if s.discovery.markerBytes = 0 then some .zeroMarkerBytes
  else if s.discovery.extensions.isEmpty then some .noExtensions
  else
    match s.discovery.extensions.find? (!isBareExtension ·) with
    | some extension => some (.badExtension extension)
    | none => if isBlankString s.diagnostics.source then some .blankSource else none

/-- Check settings. -/
def check (s : Settings) : Except SettingFault Unit :=
  match s.fault? with
  | some fault => .error fault
  | none => .ok ()

/-- The settings in a file. -/
def ofFile (files : FileSystem) (path : String) : Except SettingFault Settings :=
  match files.readText path.toList with
  | .error fault => .error (.unreadable path fault)
  | .ok text =>
    match ofToml? text with
    | some settings => .ok settings
    | none => .error (.malformed path)

/-- Load settings. -/
def load (files : FileSystem) (env : Environment) (path : Option String) :
    Except SettingFault Settings := do
  let base ← match path with
    | some path => ofFile files path
    | none => pure {}
  let settings ← override env base
  settings.check
  pure settings

end Settings

end ApiWorkflow
