import ApiWorkflow.Document.Json

/-! # Settings -/

namespace ApiWorkflow

/-- How long descriptions are kept. -/
structure CacheSettings where
  /-- In seconds. -/
  lifetime : Nat := 300
  deriving Repr, DecidableEq, Inhabited

/-- Where API descriptions are looked for. -/
structure DiscoverySettings where
  /-- How many directories deep. -/
  maxDepth : Nat := 2
  /-- Names of directories that are left out. -/
  excludedDirs : List String :=
    ["node_modules", "target", "dist", "build", "vendor", "out", "__pycache__"]
  extensions : List String := ["yaml", "yml", "json"]
  /-- How much of a file is searched for a marker. -/
  markerBytes : Nat := 1024
  deriving Repr, DecidableEq, Inhabited

/-- How findings are shown in an editor. -/
structure DiagnosticSettings where
  /-- Where the marked part of a line ends. -/
  endColumn : Nat := 100
  source : String := "arazzo-lsp"
  deriving Repr, DecidableEq, Inhabited

/-- All settings. -/
structure Settings where
  logLevel : String := "info"
  cache : CacheSettings := {}
  discovery : DiscoverySettings := {}
  diagnostics : DiagnosticSettings := {}
  deriving Repr, DecidableEq, Inhabited

def Settings.json (s : Settings) : Json :=
  .object [("log_level", .string s.logLevel),
    ("cache", .object [("ttl_seconds", .int s.cache.lifetime)]),
    ("discovery", .object [("max_depth", .int s.discovery.maxDepth),
      ("excluded_dirs", .ofList .string s.discovery.excludedDirs),
      ("extensions", .ofList .string s.discovery.extensions),
      ("marker_bytes", .int s.discovery.markerBytes)]),
    ("diagnostics", .object [("end_column", .int s.diagnostics.endColumn),
      ("source", .string s.diagnostics.source)])]

end ApiWorkflow
