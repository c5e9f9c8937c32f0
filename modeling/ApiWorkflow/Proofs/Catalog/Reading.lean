import ApiWorkflow.Catalog
import ApiWorkflow.Proofs.Operation.Index

/-! # Reading one description

`Catalog.obtain` and `Catalog.indexFile` as relations: each constructor is one way in
which they can end, with all that it changes. Everything that is shown of catalogs
later rests on these two relations and on what `invalidate` does.
-/

namespace ApiWorkflow

/-! ## Descriptions from files -/

namespace FileSystem

theorem modified_of_readText {fs : FileSystem} {path text : List Char}
    (reads : fs.readText path = .ok text) : ∃ time, fs.modified path = .ok time := by
  cases found : fs.find path with
  | error fault => simp [readText, readBytes, found, bind, Except.bind] at reads
  | ok tree =>
    cases tree with
    | file bytes time => exact ⟨time, by simp [modified, found, bind, Except.bind]⟩
    | link target => simp [readText, readBytes, found, bind, Except.bind] at reads
    | dir time entries => simp [readText, readBytes, found, bind, Except.bind] at reads

end FileSystem

theorem DescriptionCache.modified_eq_ok_iff {files : FileSystem} {uri : List Char} {time : Int} :
    DescriptionCache.modified files uri = .ok time ↔
      ∃ path, FileUri.toPath uri = .ok path ∧ files.modified path = .ok time := by
  unfold DescriptionCache.modified
  cases names : FileUri.toPath uri with
  | error fault =>
    constructor
    · intro changed
      cases changed
    · rintro ⟨path, same, -⟩
      cases same
  | ok path =>
    constructor
    · intro changed
      cases stamp : files.modified path with
      | error fault =>
        have fails : Except.mapError Error.noFile (files.modified path) = .ok time := changed
        rw [stamp] at fails
        cases fails
      | ok other =>
        have gives : Except.mapError Error.noFile (files.modified path) = .ok time := changed
        rw [stamp] at gives
        cases gives
        exact ⟨path, rfl, stamp⟩
    · rintro ⟨other, same, stamp⟩
      cases same
      exact congrArg (Except.mapError Error.noFile) stamp

namespace ApiDescription

theorem exists_of_mem_pathOperations {uri : String} {text : List Char}
    {entry : Yaml.Value × Yaml.Value} {operation : Operation}
    (member : operation ∈ pathOperations uri text entry) :
    ∃ path method value, operationOf? uri text path method value = some operation := by
  unfold pathOperations at member
  split at member
  · obtain ⟨⟨method, value⟩, -, made⟩ := List.mem_filterMap.mp member
    dsimp only at made
    split at made
    · split at made
      · exact ⟨_, _, value, made⟩
      · cases made
    · cases made
  · cases member

theorem fileUri_of_mem_pathOperations {uri : String} {text : List Char}
    {entry : Yaml.Value × Yaml.Value} {operation : Operation}
    (member : operation ∈ pathOperations uri text entry) : operation.fileUri = uri := by
  obtain ⟨path, method, value, made⟩ := exists_of_mem_pathOperations member
  simp only [operationOf?] at made
  split at made
  · cases made
  · cases made
    rfl

theorem belongsTo_ofValue (uri : String) (text : List Char) (value : Yaml.Value) :
    (ofValue uri text value).description.BelongsTo uri where
  itself := rfl
  operations := by
    intro operation member
    obtain ⟨entry, -, inEntry⟩ := List.mem_flatMap.mp member
    exact fileUri_of_mem_pathOperations inEntry

theorem belongsTo_of_extract {files : FileSystem} {uri : String} {extraction : Extraction}
    (reads : extract files uri = .ok extraction) : extraction.description.BelongsTo uri := by
  unfold extract at reads
  split at reads
  · cases reads
  split at reads
  · cases reads
  unfold ofText at reads
  split at reads
  · cases reads
    exact belongsTo_ofValue uri _ _
  · cases reads

theorem modified_of_extract {files : FileSystem} {uri : String} {extraction : Extraction}
    (reads : extract files uri = .ok extraction) :
    ∃ time, DescriptionCache.modified files uri.toList = .ok time := by
  unfold extract at reads
  split at reads
  · cases reads
  rename_i path names
  split at reads
  · cases reads
  rename_i text readsText
  obtain ⟨time, changed⟩ := FileSystem.modified_of_readText readsText
  exact ⟨time, DescriptionCache.modified_eq_ok_iff.mpr ⟨path, names, changed⟩⟩

end ApiDescription

/-! ## The two relations -/

namespace Catalog

open FileUri (IsCanonical)

/-- The ways in which the description of a canonical uri is come by. -/
inductive Obtained (now : Moment) (cache : DescriptionCache) (uri : String) :
    DescriptionCache → Except Error ApiDescription → Prop where
  /-- The cache serves it. -/
  | served {entry : CacheEntry} (fresh : cache.served? now uri.toList = some entry) :
      Obtained now cache uri
        { cache with entries := cache.entries.insert uri { entry with hits := entry.hits + 1 } }
        (.ok entry.description)
  /-- Its file cannot be read, and nothing changes. -/
  | unread {error : Error} (missed : cache.served? now uri.toList = none)
      (fails : ApiDescription.extract now.files uri = .error error) :
      Obtained now cache uri cache (.error error)
  /-- Its file is read, and the cache keeps it. -/
  | read {extraction : ApiDescription.Extraction} {modified : Int}
      (missed : cache.served? now uri.toList = none)
      (reads : ApiDescription.extract now.files uri = .ok extraction)
      (changed : DescriptionCache.modified now.files uri.toList = .ok modified) :
      Obtained now cache uri
        { cache with
          entries := cache.entries.insert uri ⟨extraction.description, modified, now.time, 0⟩ }
        (.ok extraction.description)

theorem get_of_isCanonical {now : Moment} {cache : DescriptionCache} {uri : String}
    (canonical : IsCanonical uri.toList) :
    cache.get now uri =
      match cache.served? now uri.toList with
      | none => (cache, none)
      | some entry =>
        ({ cache with entries := cache.entries.insert uri { entry with hits := entry.hits + 1 } },
          some entry.description) := by
  have spells : FileUri.canonical uri.toList = .ok uri.toList := canonical
  cases fresh : cache.served? now uri.toList with
  | none => simp only [DescriptionCache.get, spells, fresh]
  | some entry => simp only [DescriptionCache.get, spells, fresh, String.ofList_toList]

theorem put_of_isCanonical {now : Moment} {cache : DescriptionCache} {uri : String}
    {description : ApiDescription} {modified : Int} (canonical : IsCanonical uri.toList)
    (changed : DescriptionCache.modified now.files uri.toList = .ok modified) :
    cache.put now uri description =
      .ok { cache with
        entries := cache.entries.insert uri ⟨description, modified, now.time, 0⟩ } := by
  have spells : FileUri.canonical uri.toList = .ok uri.toList := canonical
  rw [DescriptionCache.put, spells]
  change (DescriptionCache.modified now.files uri.toList >>= fun modified =>
    pure { cache with
      entries := cache.entries.insert (String.ofList uri.toList)
        ⟨description, modified, now.time, 0⟩ }) = _
  rw [changed, String.ofList_toList]
  rfl

theorem obtained_obtain (now : Moment) (cache : DescriptionCache) {uri : String}
    (canonical : IsCanonical uri.toList) :
    Obtained now cache uri (obtain now cache uri).1 (obtain now cache uri).2 := by
  unfold obtain
  rw [get_of_isCanonical canonical]
  cases fresh : cache.served? now uri.toList with
  | some entry => exact .served fresh
  | none =>
    cases reads : ApiDescription.extract now.files uri with
    | error error => exact .unread fresh reads
    | ok extraction =>
      obtain ⟨modified, changed⟩ := ApiDescription.modified_of_extract reads
      simp only [put_of_isCanonical canonical changed]
      exact .read fresh reads changed

/-- The ways in which a description is read into a catalog. -/
inductive Indexed (now : Moment) (catalog : Catalog) (uri : String) :
    Catalog → Except Error Nat → Prop where
  /-- The uri names no file. -/
  | refused {fault : FileUri.Fault} (names : FileUri.canonical uri.toList = .error fault) :
      Indexed now catalog uri catalog (.error (.badUri fault))
  /-- Its file cannot be read, and nothing changes. -/
  | failed {key : String} {error : Error} (spells : FileUri.canonical uri.toList = .ok key.toList)
      (unread : Obtained now catalog.cache key catalog.cache (.error error)) :
      Indexed now catalog uri catalog (.error error)
  /-- The description takes the place of what the index had of the file. -/
  | stored {key : String} {cache : DescriptionCache} {description : ApiDescription}
      (spells : FileUri.canonical uri.toList = .ok key.toList)
      (found : Obtained now catalog.cache key cache (.ok description)) :
      Indexed now catalog uri { index := catalog.index.replace key description, cache := cache }
        (.ok ((catalog.index.remove key).addAll description.operations).2)

/-- A uri whose canonical spelling, if it has one, is canonical itself. -/
def Settles (uri : String) : Prop :=
  ∀ spelled, FileUri.canonical uri.toList = .ok spelled → IsCanonical spelled

theorem settles_of_hasScheme {uri : String} (file : FileUri.HasScheme uri.toList) : Settles uri :=
  fun _ spells => FileUri.isCanonical_of_canonical file spells

theorem indexed_indexFile (now : Moment) (catalog : Catalog) {uri : String}
    (settles : Settles uri) :
    Indexed now catalog uri (catalog.indexFile now uri).1 (catalog.indexFile now uri).2 := by
  unfold indexFile
  split
  · rename_i fault names
    exact .refused names
  · rename_i spelled names
    have spells : FileUri.canonical uri.toList = .ok (String.ofList spelled).toList := by
      rw [names, String.toList_ofList]
    have canonical : IsCanonical (String.ofList spelled).toList := by
      rw [String.toList_ofList]
      exact settles spelled names
    have found := obtained_obtain now catalog.cache canonical
    dsimp only
    split
    · rename_i cache error result
      rw [result] at found
      cases found with
      | unread missed fails => exact .failed spells (.unread missed fails)
    · rename_i cache description result
      rw [result] at found
      exact .stored spells found

end Catalog

end ApiWorkflow
