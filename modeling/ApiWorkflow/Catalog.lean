import ApiWorkflow.Description.Cache
import ApiWorkflow.Description.Discovery
import ApiWorkflow.Description.Extract
import ApiWorkflow.Operation.Index

/-! # The catalog of operations

The index of operations with the cache of the descriptions that fill it.
Descriptions are read from the cache where it serves them.
-/

namespace ApiWorkflow

/-- Known operations and kept descriptions. -/
structure Catalog where
  index : OperationIndex := {}
  cache : DescriptionCache
  deriving Repr, DecidableEq, Inhabited

/-- What came of filling a catalog. -/
structure IndexReport where
  discovered : Nat := 0
  indexed : Nat := 0
  failed : Nat := 0
  operations : Nat := 0
  deriving Repr, DecidableEq, Inhabited

def IndexReport.json (r : IndexReport) : Json :=
  .object [("discovered", .int r.discovered), ("indexed", .int r.indexed),
    ("failed", .int r.failed), ("operations", .int r.operations)]

namespace Catalog

/-- The description of a canonical uri, from the cache or else from its file. -/
def obtain (now : Moment) (cache : DescriptionCache) (uri : String) :
    DescriptionCache × Except Error ApiDescription :=
  match cache.get now uri with
  | (cache, some description) => (cache, .ok description)
  | (cache, none) =>
    match ApiDescription.extract now.files uri with
    | .error e => (cache, .error e)
    | .ok extraction =>
      match cache.put now uri extraction.description with
      | .ok cache => (cache, .ok extraction.description)
      | .error _ => (cache, .ok extraction.description)

/-- Read a description into the index, in place of what the index has of it. The
    result is the number of operations that were added. -/
def indexFile (now : Moment) (catalog : Catalog) (uri : String) : Catalog × Except Error Nat :=
  match FileUri.canonical uri.toList with
  | .error fault => (catalog, .error (.badUri fault))
  | .ok canonical =>
    let uri := String.ofList canonical
    match obtain now catalog.cache uri with
    | (cache, .error e) => ({ catalog with cache := cache }, .error e)
    | (cache, .ok description) =>
      let (index, added) := (catalog.index.remove uri).addAll description.operations
      ({ index := index.addDescription description, cache := cache }, .ok added)

/-- Forget a description and its operations. -/
def invalidate (catalog : Catalog) (uri : String) : Catalog :=
  let key := FileUri.key uri
  { index := catalog.index.remove key, cache := catalog.cache.invalidate key }

/-- Read a description anew. -/
def reindexFile (now : Moment) (catalog : Catalog) (uri : String) : Catalog × Except Error Nat :=
  (catalog.invalidate uri).indexFile now uri

/-- Read descriptions in turn and count what comes of them. -/
def indexAll (now : Moment) : Catalog → IndexReport → List String → Catalog × IndexReport
  | catalog, report, [] => (catalog, report)
  | catalog, report, uri :: uris =>
    match catalog.indexFile now uri with
    | (catalog, .ok added) =>
      indexAll now catalog
        { report with indexed := report.indexed + 1, operations := report.operations + added } uris
    | (catalog, .error _) =>
      indexAll now catalog { report with failed := report.failed + 1 } uris

/-- Read all descriptions near a document. -/
def build (now : Moment) (settings : DiscoverySettings) (catalog : Catalog) (uri : String) :
    Catalog × Except Error IndexReport :=
  match Discovery.discover now.files settings uri with
  | .error e => (catalog, .error e)
  | .ok uris =>
    let (catalog, report) := indexAll now catalog { discovered := uris.length } uris
    (catalog, .ok report)

end Catalog

end ApiWorkflow
