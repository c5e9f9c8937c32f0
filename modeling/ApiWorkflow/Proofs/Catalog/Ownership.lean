import ApiWorkflow.Proofs.Catalog.Run

/-! # Who owns an operation

Every operation of the index is listed by the description that the index has of its
file, and every description stands under the canonical uri that it and its operations
name. Three maps that are changed by separate calls agree because they all use the
same canonical uri: `Coherent` says so, and every move keeps it.
-/

namespace ApiWorkflow.Catalog

/-- The maps of a catalog agree on who owns what. -/
structure Coherent (catalog : Catalog) : Prop where
  wellFormed : catalog.index.WellFormed
  described : ∀ uri description, catalog.index.descriptions.get? uri = some description →
    description.BelongsTo uri
  listed : ∀ id operation, catalog.index.find? id = some operation →
    ∃ description, catalog.index.descriptions.get? operation.fileUri = some description ∧
      operation ∈ description.operations
  cached : ∀ entry ∈ catalog.cache.entries, entry.2.description.BelongsTo entry.1

theorem coherent_empty (lifetime : Nat) : Coherent (empty lifetime) where
  wellFormed := OperationIndex.wellFormed_empty
  described := by
    intro uri description found
    cases found
  listed := by
    intro id operation found
    cases found
  cached := by
    intro entry member
    cases member

theorem settled_key {uri : String} (settles : Settles uri) :
    FileUri.key (FileUri.key uri) = FileUri.key uri := by
  cases spells : FileUri.canonical uri.toList with
  | error fault =>
    have same : FileUri.key uri = uri := by
      rw [FileUri.key, FileUri.keyChars, spells, String.ofList_toList]
    rw [same, same]
  | ok spelled =>
    have same : FileUri.key uri = String.ofList spelled := by
      rw [FileUri.key, FileUri.keyChars, spells]
    rw [same]
    apply FileUri.key_of_isCanonical
    rw [String.toList_ofList]
    exact settles spelled spells

theorem settled_of_spells {uri key : String} (settles : Settles uri)
    (spells : FileUri.canonical uri.toList = .ok key.toList) : FileUri.key key = key :=
  FileUri.key_of_isCanonical (settles key.toList spells)

/-! ## What a move keeps -/

theorem belongsTo_insert {entries : Fields CacheEntry}
    (cached : ∀ entry ∈ entries, entry.2.description.BelongsTo entry.1) {uri : String}
    {new : CacheEntry} (belongs : new.description.BelongsTo uri) :
    ∀ entry ∈ entries.insert uri new, entry.2.description.BelongsTo entry.1 := by
  intro entry member
  rcases Fields.mem_insert member with rfl | before
  · exact belongs
  · exact cached entry before

/-- Whatever way a description is come by, it belongs to the uri, and so does what the
    cache has of every uri. -/
theorem Obtained.belongsTo {now : Moment} {cache next : DescriptionCache} {uri : String}
    {result : Except Error ApiDescription} (found : Obtained now cache uri next result)
    (cached : ∀ entry ∈ cache.entries, entry.2.description.BelongsTo entry.1) :
    (∀ entry ∈ next.entries, entry.2.description.BelongsTo entry.1) ∧
      ∀ description, result = .ok description → description.BelongsTo uri := by
  cases found with
  | served fresh =>
    rename_i entry
    have kept := (Option.filter_eq_some_iff.mp fresh).1
    rw [String.ofList_toList] at kept
    have belongs : entry.description.BelongsTo uri := cached _ (Fields.mem_of_get? kept)
    refine ⟨belongsTo_insert cached belongs, ?_⟩
    intro description same
    cases same
    exact belongs
  | unread missed fails =>
    refine ⟨cached, ?_⟩
    intro description same
    cases same
  | read missed reads changed =>
    have belongs := ApiDescription.belongsTo_of_extract reads
    refine ⟨belongsTo_insert cached belongs, ?_⟩
    intro description same
    cases same
    exact belongs

theorem Coherent.remove {catalog : Catalog} (coherent : catalog.Coherent) {uri : String}
    (settled : FileUri.key uri = uri) :
    Coherent { index := catalog.index.remove uri, cache := catalog.cache.invalidate uri } where
  wellFormed := coherent.wellFormed.remove uri
  described := by
    intro key description found
    rw [OperationIndex.get?_descriptions_remove _ settled] at found
    split at found
    · cases found
    · exact coherent.described key description found
  listed := by
    intro id operation found
    rw [OperationIndex.find?_remove coherent.wellFormed settled,
      Option.filter_eq_some_iff] at found
    obtain ⟨description, isThere, lists⟩ := coherent.listed id operation found.1
    have other : operation.fileUri ≠ uri := bne_iff_ne.mp found.2
    refine ⟨description, ?_, lists⟩
    rw [OperationIndex.get?_descriptions_remove _ settled, if_neg other]
    exact isThere
  cached := by
    intro entry member
    exact coherent.cached entry (List.mem_filter.mp member).1

theorem Coherent.replace {catalog : Catalog} (coherent : catalog.Coherent) {uri : String}
    (settled : FileUri.key uri = uri) {description : ApiDescription}
    (belongs : description.BelongsTo uri) {cache : DescriptionCache}
    (cached : ∀ entry ∈ cache.entries, entry.2.description.BelongsTo entry.1) :
    Coherent { index := catalog.index.replace uri description, cache := cache } where
  wellFormed := coherent.wellFormed.replace uri description
  described := by
    intro key found isFound
    rw [OperationIndex.get?_descriptions_replace _ settled belongs] at isFound
    split at isFound
    · rename_i same
      cases isFound
      rw [same]
      exact belongs
    · exact coherent.described key found isFound
  listed := by
    intro id operation found
    rw [OperationIndex.find?_replace coherent.wellFormed settled, Option.or_eq_some_iff] at found
    -- What was there before is of another file; the rest comes from the new description.
    rcases found with older | ⟨-, new⟩
    · rw [Option.filter_eq_some_iff] at older
      obtain ⟨owner, isThere, lists⟩ := coherent.listed id operation older.1
      have other : operation.fileUri ≠ uri := bne_iff_ne.mp older.2
      refine ⟨owner, ?_, lists⟩
      rw [OperationIndex.get?_descriptions_replace _ settled belongs, if_neg other]
      exact isThere
    · have lists := List.mem_of_find?_eq_some new
      refine ⟨description, ?_, lists⟩
      rw [OperationIndex.get?_descriptions_replace _ settled belongs,
        if_pos (belongs.operations operation lists)]
  cached := cached

theorem Coherent.indexed {now : Moment} {catalog next : Catalog} {uri : String}
    {result : Except Error Nat} (coherent : catalog.Coherent) (settles : Settles uri)
    (indexed : Indexed now catalog uri next result) : next.Coherent := by
  cases indexed with
  | refused names => exact coherent
  | failed spells unread => exact coherent
  | stored spells found =>
    obtain ⟨cached, belongs⟩ := found.belongsTo coherent.cached
    exact coherent.replace (settled_of_spells settles spells) (belongs _ rfl) cached

theorem Coherent.invalidate {catalog : Catalog} {uri : String} (coherent : catalog.Coherent)
    (settles : Settles uri) : (catalog.invalidate uri).Coherent :=
  coherent.remove (settled_key settles)

theorem Coherent.move {catalog : Catalog} (coherent : catalog.Coherent) (m : Move)
    (settles : Settles m.uri) : (catalog.move m).Coherent := by
  cases m with
  | read now uri => exact coherent.indexed settles (indexed_indexFile now catalog settles)
  | forget uri => exact coherent.invalidate settles

/-! ## Runs -/

theorem coherent_after (settings : DiscoverySettings) (lifetime : Nat)
    {run : List (Moment × Request)} (onFiles : OnFiles run) :
    (after settings (empty lifetime) run).Coherent :=
  after_induction settings onFiles (coherent_empty lifetime)
    fun _ m file coherent => coherent.move m (settles_of_hasScheme file)

theorem fileUri_ne_of_mem_invalidate (catalog : Catalog) (uri : String) {id : String}
    {operation : Operation} (member : (id, operation) ∈ (catalog.invalidate uri).index.operations) :
    operation.fileUri ≠ FileUri.key uri := by
  obtain ⟨-, other⟩ := List.mem_filter.mp member
  exact bne_iff_ne.mp (Bool.and_eq_true_iff.mp other).2

theorem Coherent.mem_of_indexFile {catalog next : Catalog} (coherent : catalog.Coherent)
    {now : Moment} {uri : String} (settles : Settles uri) {n : Nat}
    (added : catalog.indexFile now uri = (next, .ok n)) :
    ∃ description, Obtained now catalog.cache (FileUri.key uri) next.cache (.ok description) ∧
      ∀ id operation, (id, operation) ∈ next.index.operations →
        operation.fileUri = FileUri.key uri → operation ∈ description.operations := by
  have indexed := indexed_indexFile now catalog settles
  rw [added] at indexed
  have kept := coherent.indexed settles indexed
  cases indexed with
  | @stored spelled cache description spells found =>
    have isKey : FileUri.key uri = spelled := by
      rw [FileUri.key, FileUri.keyChars, spells, String.ofList_toList]
    have belongs := (found.belongsTo coherent.cached).2 description rfl
    rw [isKey]
    refine ⟨description, found, ?_⟩
    intro id operation member same
    have isThere := Fields.get?_of_mem kept.wellFormed.operations member
    obtain ⟨owner, isOwner, lists⟩ := kept.listed id operation isThere
    rw [OperationIndex.get?_descriptions_replace _ (settled_of_spells settles spells) belongs,
      if_pos same] at isOwner
    cases isOwner
    exact lists

/-- Every operation is owned by the description that the index has of its file. -/
structure Owned (catalog : Catalog) : Prop where
  keyed : ∀ id operation, (id, operation) ∈ catalog.index.operations → operation.operationId = id
  listed : ∀ id operation, (id, operation) ∈ catalog.index.operations →
    ∃ description, (operation.fileUri, description) ∈ catalog.index.descriptions ∧
      description.uri = operation.fileUri ∧ operation ∈ description.operations
  cached : ∀ uri entry, (uri, entry) ∈ catalog.cache.entries →
    entry.description.uri = uri ∧
      ∀ operation ∈ entry.description.operations, operation.fileUri = uri
  /-- Nothing is left of a file once it is forgotten. -/
  removed : ∀ uri id operation, (id, operation) ∈ (catalog.invalidate uri).index.operations →
    operation.fileUri ≠ FileUri.key uri
  /-- Once a file is read, nothing is left of it but what was obtained then. -/
  replaced : ∀ now uri next n, FileUri.HasScheme uri.toList →
    catalog.indexFile now uri = (next, .ok n) →
      ∃ description, Obtained now catalog.cache (FileUri.key uri) next.cache (.ok description) ∧
        ∀ id operation, (id, operation) ∈ next.index.operations →
          operation.fileUri = FileUri.key uri → operation ∈ description.operations

theorem Coherent.owned {catalog : Catalog} (coherent : catalog.Coherent) : catalog.Owned where
  keyed := by
    intro id operation member
    have found := Fields.get?_of_mem coherent.wellFormed.operations member
    exact coherent.wellFormed.keyed id operation found
  listed := by
    intro id operation member
    have found := Fields.get?_of_mem coherent.wellFormed.operations member
    obtain ⟨description, isThere, lists⟩ := coherent.listed id operation found
    have belongs := coherent.described _ _ isThere
    exact ⟨description, Fields.mem_of_get? isThere, belongs.itself, lists⟩
  cached := by
    intro uri entry member
    have belongs := coherent.cached _ member
    exact ⟨belongs.itself, belongs.operations⟩
  removed := fun uri _ _ member => catalog.fileUri_ne_of_mem_invalidate uri member
  replaced := fun _ _ _ _ file added => coherent.mem_of_indexFile (settles_of_hasScheme file) added

/-- After every run on `file://` uris, in whatever spelling, with the files changing in
    any way between the requests, each operation is owned by the description that the index has
    of its file, and nothing of an earlier version outlives the next request on it. -/
theorem owned_after_run (settings : DiscoverySettings) (lifetime : Nat)
    (run : List (Moment × Request)) (onFiles : OnFiles run) :
    (after settings (empty lifetime) run).Owned :=
  (coherent_after settings lifetime onFiles).owned

/-- The bytes of a description with one operation. -/
def declaring (id : String) : List UInt8 :=
  Text.Utf8.encode ("\x7b\"openapi\":\"3\",\"paths\":\x7b\"/p\":\x7b\"get\":" ++
    "\x7b\"operationId\":\"" ++ id ++ "\"\x7d\x7d\x7d\x7d").toList

/-- A world with two files that describe one operation each, under the same id. -/
def twins (changed : Int) (id : String) : Moment where
  files :=
    { root := .dir changed [("a.json".toList, .file (declaring id) changed),
        ("b.json".toList, .file (declaring id) changed)]
      workDir := [] }
  time := 0

theorem owned_after_twins :
    let run := [(twins 1 "x", Request.index "file:///a.json"),
      (twins 2 "y", .reindex "file://localhost/a%2ejson")]
    OnFiles run ∧ (after {} (empty 300) run).index.size = 1 ∧
      (after {} (empty 300) run).Owned :=
  ⟨by decide +kernel, by decide +kernel, owned_after_run {} 300 _ (by decide +kernel)⟩

end ApiWorkflow.Catalog
