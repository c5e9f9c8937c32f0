import ApiWorkflow.Error
import ApiWorkflow.Operation.Basic

/-! # The cache of API descriptions

Descriptions by the canonical spelling of their uris. One is served as long as it
is not too old and its file has not changed since.
-/

namespace ApiWorkflow

/-- The outside world at some time. -/
structure Moment where
  files : FileSystem
  /-- Nanoseconds on a steady clock. -/
  time : Nat
  deriving Repr, Inhabited

/-- A description in the cache. -/
structure CacheEntry where
  description : ApiDescription
  /-- When the file was last changed. -/
  modified : Int
  storedAt : Nat
  /-- How often it was served. -/
  hits : Nat
  deriving Repr, DecidableEq, Inhabited

/-- Descriptions that need not be read again. -/
structure DescriptionCache where
  /-- In seconds. -/
  lifetime : Nat
  entries : Fields CacheEntry := []
  deriving Repr, DecidableEq, Inhabited

namespace DescriptionCache

/-- Whether an entry is too old: more than its lifetime has passed. -/
def isExpired (cache : DescriptionCache) (time : Nat) (entry : CacheEntry) : Bool :=
  cache.lifetime * 1000000000 < time - entry.storedAt

/-- When the file of a uri was last changed. -/
def modified (files : FileSystem) (uri : List Char) : Except Error Int := do
  let path ← (FileUri.toPath uri).mapError .badUri
  (files.modified path).mapError .noFile

/-- Whether the file of a uri is the one that an entry was made of. -/
def isCurrent (files : FileSystem) (uri : List Char) (entry : CacheEntry) : Bool :=
  match modified files uri with
  | .ok time => time == entry.modified
  | .error _ => false

/-- The entry that is served for a canonical uri. -/
def served? (cache : DescriptionCache) (now : Moment) (uri : List Char) : Option CacheEntry :=
  (cache.entries.get? (String.ofList uri)).filter fun entry =>
    !cache.isExpired now.time entry && isCurrent now.files uri entry

/-- Ask for a description. -/
def get (cache : DescriptionCache) (now : Moment) (uri : String) :
    DescriptionCache × Option ApiDescription :=
  match FileUri.canonical uri.toList with
  | .error _ => (cache, none)
  | .ok uri =>
    match cache.served? now uri with
    | none => (cache, none)
    | some entry =>
      let entry := { entry with hits := entry.hits + 1 }
      ({ cache with entries := cache.entries.insert (String.ofList uri) entry },
        some entry.description)

/-- Keep a description. -/
def put (cache : DescriptionCache) (now : Moment) (uri : String) (description : ApiDescription) :
    Except Error DescriptionCache := do
  let uri ← (FileUri.canonical uri.toList).mapError .badUri
  let modified ← modified now.files uri
  pure { cache with
    entries := cache.entries.insert (String.ofList uri) ⟨description, modified, now.time, 0⟩ }

/-- Forget the description of a uri. -/
def invalidate (cache : DescriptionCache) (uri : String) : DescriptionCache :=
  { cache with entries := cache.entries.erase (FileUri.key uri) }

def clear (cache : DescriptionCache) : DescriptionCache :=
  { cache with entries := [] }

/-- Forget the descriptions that are too old. -/
def clean (cache : DescriptionCache) (time : Nat) : DescriptionCache :=
  { cache with entries := cache.entries.filter fun (_, entry) => !cache.isExpired time entry }

def size (cache : DescriptionCache) : Nat :=
  cache.entries.length

/-- How often the description of a uri was served. -/
def hits? (cache : DescriptionCache) (uri : String) : Option Nat :=
  (cache.entries.get? (FileUri.key uri)).map (·.hits)

/-- How often all descriptions were served. -/
def totalHits (cache : DescriptionCache) : Nat :=
  cache.entries.foldl (fun total (_, entry) => total + entry.hits) 0

end DescriptionCache

end ApiWorkflow
