import ApiWorkflow.Settings.Basic
import ApiWorkflow.Toml.Document

/-! # Settings from a TOML document

Settings that are not given keep their defaults, and keys that are not known are
passed over. A group of settings may also be given as the list of its values.
-/

namespace ApiWorkflow.Settings

open Toml (Value)

/-- A setting in a group of type `σ`: its name, and how its value changes the group. -/
structure Item (σ : Type) where
  name : String
  put : Value → σ → Option σ

/-- Change a group by the settings that a table gives. -/
def fromEntries {σ : Type} (entries : Toml.Entries) : List (Item σ) → σ → Option σ
  | [], group => some group
  | item :: items, group =>
    match entries.lookup item.name with
    | some value => (item.put value group).bind (fromEntries entries items)
    | none => fromEntries entries items group

/-- Change a group by its settings in turn. -/
def fromItems {σ : Type} : List (Item σ) → List Value → σ → Option σ
  | item :: items, value :: values, group => (item.put value group).bind (fromItems items values)
  | _, _, group => some group

/-- A group of settings. A date says nothing about any of them. -/
def group {σ : Type} (items : List (Item σ)) (default : σ) : Value → Option σ
  | .table _ entries => fromEntries entries items default
  | .list values => fromItems items values default
  | .tables tables => fromItems items (tables.map (.table .declared ·)) default
  | .moment => some default
  | _ => none

def textOf : Value → Option String
  | .text s => some s
  | _ => none

/-- A natural number of some bits. -/
def naturalOf (bits : Nat) : Value → Option Nat
  | .int i => if fitsUnsigned bits i then some i.toNat else none
  | _ => none

def textsOf : Value → Option (List String)
  | .list items => items.mapM textOf
  | _ => none

/-- A setting that is set by its value. -/
def item {σ α : Type} (name : String) (read : Value → Option α) (put : α → σ → σ) : Item σ :=
  ⟨name, fun value group => (read value).map (put · group)⟩

def cacheItems : List (Item CacheSettings) :=
  [item "ttl_seconds" (naturalOf 64) fun n s => { s with lifetime := n }]

def discoveryItems : List (Item DiscoverySettings) :=
  [item "max_depth" (naturalOf 64) fun n s => { s with maxDepth := n },
    item "excluded_dirs" textsOf fun names s => { s with excludedDirs := names },
    item "extensions" textsOf fun names s => { s with extensions := names },
    item "marker_bytes" (naturalOf 64) fun n s => { s with markerBytes := n }]

def diagnosticItems : List (Item DiagnosticSettings) :=
  [item "end_column" (naturalOf 32) fun n s => { s with endColumn := n },
    item "source" textOf fun text s => { s with source := text }]

def items : List (Item Settings) :=
  [item "log_level" textOf fun text s => { s with logLevel := text },
    item "cache" (group cacheItems {}) fun cache s => { s with cache := cache },
    item "discovery" (group discoveryItems {}) fun discovery s => { s with discovery := discovery },
    item "diagnostics" (group diagnosticItems {}) fun diagnostics s =>
      { s with diagnostics := diagnostics }]

/-- The settings of a TOML text. -/
def ofToml? (text : List Char) : Option Settings := do
  fromEntries (← Toml.parse text) items {}

end ApiWorkflow.Settings
