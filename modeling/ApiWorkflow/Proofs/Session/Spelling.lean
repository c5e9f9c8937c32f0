import ApiWorkflow.Proofs.Catalog.Ownership
import ApiWorkflow.Proofs.File.Key
import ApiWorkflow.Session
import Mathlib.Data.List.Forall2

/-! # Sessions do not see how a uri is spelled

Some operations of a session spell a uri canonically, others take its key, and some do
both one after the other. The key of a uri tells its canonical spelling, so all of them
see the key alone: a run in which uris are replaced by others with the same keys gives
the same replies and ends in the same session. Opening a document is no part of such
runs, since it looks at the uri as it is written.
-/

namespace ApiWorkflow

/-! ## Operations on stores -/

namespace DescriptionCache

theorem get_eq_of_key {u v : String} (same : FileUri.key u = FileUri.key v)
    (cache : DescriptionCache) (now : Moment) : cache.get now u = cache.get now v := by
  simp only [get, FileUri.canonical_eq_of_key_eq same]

theorem put_eq_of_key {u v : String} (same : FileUri.key u = FileUri.key v)
    (cache : DescriptionCache) (now : Moment) (description : ApiDescription) :
    cache.put now u description = cache.put now v description := by
  simp only [put, FileUri.canonical_eq_of_key_eq same]

theorem invalidate_eq_of_key {u v : String} (same : FileUri.key u = FileUri.key v)
    (cache : DescriptionCache) : cache.invalidate u = cache.invalidate v := by
  simp only [invalidate, same]

theorem hits?_eq_of_key {u v : String} (same : FileUri.key u = FileUri.key v)
    (cache : DescriptionCache) : cache.hits? u = cache.hits? v := by
  simp only [hits?, same]

end DescriptionCache

theorem OperationIndex.description?_eq_of_key {u v : String}
    (same : FileUri.key u = FileUri.key v) (index : OperationIndex) :
    index.description? u = index.description? v := by
  simp only [description?, same]

namespace Catalog

theorem indexFile_eq_of_key {u v : String} (same : FileUri.key u = FileUri.key v)
    (now : Moment) (catalog : Catalog) : catalog.indexFile now u = catalog.indexFile now v := by
  simp only [indexFile, FileUri.canonical_eq_of_key_eq same]

theorem invalidate_eq_of_key {u v : String} (same : FileUri.key u = FileUri.key v)
    (catalog : Catalog) : catalog.invalidate u = catalog.invalidate v := by
  simp only [invalidate, same]

theorem reindexFile_eq_of_key {u v : String} (same : FileUri.key u = FileUri.key v)
    (now : Moment) (catalog : Catalog) :
    catalog.reindexFile now u = catalog.reindexFile now v := by
  rw [reindexFile, reindexFile, invalidate_eq_of_key same, indexFile_eq_of_key same]

end Catalog

/-! ## Operations on sessions -/

namespace Session

theorem text?_eq_of_key {u v : String} (same : FileUri.key u = FileUri.key v) (s : Session) :
    s.text? u = s.text? v := by
  simp only [text?, same]

theorem store_eq_of_key {u v : String} (same : FileUri.key u = FileUri.key v) (s : Session)
    (text : String) : s.store u text = s.store v text := by
  simp only [store, same]

theorem isDescriptionFile_eq_of_key {u v : String} (same : FileUri.key u = FileUri.key v)
    (s : Session) : s.isDescriptionFile u = s.isDescriptionFile v := by
  rw [isDescriptionFile, isDescriptionFile, text?_eq_of_key same,
    OperationIndex.description?_eq_of_key same]

theorem saveText_eq_of_key {u v : String} (same : FileUri.key u = FileUri.key v) (now : Moment)
    (s : Session) (text : Option String) : s.saveText now u text = s.saveText now v text := by
  simp only [saveText, store_eq_of_key same, text?_eq_of_key same,
    isDescriptionFile_eq_of_key same, Catalog.reindexFile_eq_of_key same]

theorem definition?_eq_of_key {u v : String} (same : FileUri.key u = FileUri.key v) (s : Session)
    (line character : Nat) : s.definition? u line character = s.definition? v line character := by
  simp only [definition?, text?_eq_of_key same]

/-! ## Runs -/

/-- What can be asked of a session about a uri. -/
inductive Action where
  | change (text : String)
  | save (text : Option String)
  | close
  | text
  | definition (line character : Nat)
  | index
  | reindex
  | invalidate
  | fetch
  | keep (description : ApiDescription)
  | drop
  | hits
  | isIndexed
  | description

/-- What an action is answered with. -/
inductive Reply where
  | shown (diagnostics : List Diagnostic)
  | text (text : Option String)
  | operation (operation : Option Operation)
  | added (result : Except Error Nat)
  | kept (result : Except Error Unit)
  | hits (count : Option Nat)
  | isIndexed (known : Bool)
  | description (description : Option ApiDescription)
  | done

def withCatalog (s : Session) (catalog : Catalog) : Session :=
  { s with catalog := catalog }

def withCache (s : Session) (cache : DescriptionCache) : Session :=
  s.withCatalog { s.catalog with cache := cache }

/-- The session after an action on a uri, with the reply. -/
def act (now : Moment) (s : Session) (uri : String) : Action → Session × Reply
  | .change text => (s.changeText uri text).map id .shown
  | .save text => (s.saveText now uri text).map id .shown
  | .close => (s.closeText uri, .shown [])
  | .text => (s, .text (s.text? uri))
  | .definition line character => (s, .operation (s.definition? uri line character))
  | .index => (s.catalog.indexFile now uri).map s.withCatalog .added
  | .reindex => (s.catalog.reindexFile now uri).map s.withCatalog .added
  | .invalidate => (s.withCatalog (s.catalog.invalidate uri), .done)
  | .fetch => (s.catalog.cache.get now uri).map s.withCache .description
  | .keep description =>
    match s.catalog.cache.put now uri description with
    | .ok cache => (s.withCache cache, .kept (.ok ()))
    | .error e => (s, .kept (.error e))
  | .drop => (s.withCache (s.catalog.cache.invalidate uri), .done)
  | .hits => (s, .hits (s.catalog.cache.hits? uri))
  | .isIndexed => (s, .isIndexed (s.catalog.index.description? uri).isSome)
  | .description => (s, .description (s.catalog.index.description? uri))

/-- An action on a uri, and the world at its time. -/
structure Event where
  now : Moment
  uri : String
  action : Action

/-- The session after a run, with the replies in turn. -/
def play (s : Session) : List Event → Session × List Reply
  | [] => (s, [])
  | event :: run =>
    let next := s.act event.now event.uri event.action
    let rest := next.1.play run
    (rest.1, next.2 :: rest.2)

/-- The same action at the same time, on a uri with the same key. -/
structure Event.Respells (left right : Event) : Prop where
  now : left.now = right.now
  action : left.action = right.action
  key : FileUri.key left.uri = FileUri.key right.uri

theorem act_eq_of_key {u v : String} (same : FileUri.key u = FileUri.key v) (now : Moment)
    (s : Session) (action : Action) : s.act now u action = s.act now v action := by
  cases action with
  | change text => simp only [act, changeText, store_eq_of_key same]
  | save text => simp only [act, saveText_eq_of_key same]
  | close => simp only [act, closeText, same]
  | text => simp only [act, text?_eq_of_key same]
  | definition line character => simp only [act, definition?_eq_of_key same]
  | index => simp only [act, Catalog.indexFile_eq_of_key same]
  | reindex => simp only [act, Catalog.reindexFile_eq_of_key same]
  | invalidate => simp only [act, Catalog.invalidate_eq_of_key same]
  | fetch => simp only [act, DescriptionCache.get_eq_of_key same]
  | keep description => simp only [act, DescriptionCache.put_eq_of_key same]
  | drop => simp only [act, DescriptionCache.invalidate_eq_of_key same]
  | hits => simp only [act, DescriptionCache.hits?_eq_of_key same]
  | isIndexed => simp only [act, OperationIndex.description?_eq_of_key same]
  | description => simp only [act, OperationIndex.description?_eq_of_key same]

/-- A description is read, changed, saved and asked for, and a uri of another host is
    refused in between. -/
def visit (world : Moment) (uri : String) : List Event :=
  [⟨world, uri, .index⟩, ⟨world, uri, .change "openapi:"⟩, ⟨world, uri, .save none⟩,
    ⟨world, uri, .fetch⟩, ⟨world, "file://far/b.json", .reindex⟩, ⟨world, uri, .hits⟩]

theorem play_eq_of_respells (s : Session) {run other : List Event}
    (respells : List.Forall₂ Event.Respells run other) : s.play run = s.play other := by
  induction respells generalizing s with
  | nil => rfl
  | cons first rest ih =>
    rename_i left right run other
    have step : s.act left.now left.uri left.action = s.act right.now right.uri right.action := by
      rw [first.now, first.action]
      exact act_eq_of_key first.key right.now s right.action
    rw [play, play, step, ih]

/-- A host, an escape and a blank in front make no difference. -/
theorem play_eq_of_local_host :
    let world := Catalog.twins 1 "x"
    FileUri.key "file:///a.json" = FileUri.key " file://localhost/%61.json" ∧
      ((new {}).play (visit world "file:///a.json")).1.catalog.index.size = 1 ∧
      (new {}).play (visit world "file:///a.json") =
        (new {}).play (visit world " file://localhost/%61.json") := by
  have keys : FileUri.key "file:///a.json" = FileUri.key " file://localhost/%61.json" := by
    decide +kernel
  refine ⟨keys, by decide +kernel, play_eq_of_respells (new {}) ?_⟩
  exact .cons ⟨rfl, rfl, keys⟩ (.cons ⟨rfl, rfl, keys⟩ (.cons ⟨rfl, rfl, keys⟩
    (.cons ⟨rfl, rfl, keys⟩ (.cons ⟨rfl, rfl, rfl⟩ (.cons ⟨rfl, rfl, keys⟩ .nil)))))

end Session

end ApiWorkflow
