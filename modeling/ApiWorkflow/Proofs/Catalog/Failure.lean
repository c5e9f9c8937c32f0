import ApiWorkflow.Proofs.Catalog.Ownership
import ApiWorkflow.Proofs.Description.History

/-! # What a failure leaves behind

`Catalog.obtain` and `Catalog.indexFile` as relations for any text, also for one whose canonical
spelling is not canonical itself. A catalog is not touched before a description is at hand, so a
reading that fails changes nothing at all, and reading anew changes nothing beyond what was
forgotten first.
-/

namespace ApiWorkflow.Catalog

open FileUri (key)

/-! ## Reading under any text -/

/-- The ways in which the description of any uri is come by. The cache looks under its key. -/
inductive Fetched (now : Moment) (cache : DescriptionCache) (uri : String) :
    DescriptionCache → Except Error ApiDescription → Prop where
  | served {entry : CacheEntry} (kept : cache.entries.get? (key uri) = some entry) :
      Fetched now cache uri
        { cache with entries := cache.entries.insert (key uri) { entry with hits := entry.hits + 1 } }
        (.ok entry.description)
  | unread {error : Error} (fails : ApiDescription.extract now.files uri = .error error) :
      Fetched now cache uri cache (.error error)
  | read {extraction : ApiDescription.Extraction} {modified : Int}
      (reads : ApiDescription.extract now.files uri = .ok extraction) :
      Fetched now cache uri
        { cache with
          entries := cache.entries.insert (key uri) ⟨extraction.description, modified, now.time, 0⟩ }
        (.ok extraction.description)
  /-- The file is read, but there is none under the key to take the time of change from. -/
  | unkept {extraction : ApiDescription.Extraction}
      (reads : ApiDescription.extract now.files uri = .ok extraction) :
      Fetched now cache uri cache (.ok extraction.description)

theorem fetched_obtain (now : Moment) (cache : DescriptionCache) (uri : String) :
    Fetched now cache uri (obtain now cache uri).1 (obtain now cache uri).2 := by
  have asked := DescriptionCache.answered_get cache now uri
  unfold obtain
  generalize cache.get now uri = answer at asked
  obtain ⟨next, served⟩ := answer
  cases asked with
  | served kept => exact .served kept
  | missed =>
    cases reads : ApiDescription.extract now.files uri with
    | error error => exact .unread reads
    | ok extraction =>
      have stored := DescriptionCache.answered_put next now uri extraction.description
      rw [DescriptionCache.answer] at stored
      cases keeps : next.put now uri extraction.description with
      | error error =>
        simp only [keeps]
        exact .unkept reads
      | ok kept =>
        simp only [keeps] at stored ⊢
        cases stored with
        | stored changed => exact .read reads

/-- The ways in which a description is read into a catalog under any uri. -/
inductive Entered (now : Moment) (catalog : Catalog) (uri : String) :
    Catalog → Except Error Nat → Prop where
  | refused {fault : FileUri.Fault} (names : FileUri.canonical uri.toList = .error fault) :
      Entered now catalog uri catalog (.error (.badUri fault))
  | failed {error : Error} (spells : FileUri.canonical uri.toList = .ok (key uri).toList)
      (fails : ApiDescription.extract now.files (key uri) = .error error) :
      Entered now catalog uri catalog (.error error)
  | stored {cache : DescriptionCache} {description : ApiDescription}
      (spells : FileUri.canonical uri.toList = .ok (key uri).toList)
      (found : Fetched now catalog.cache (key uri) cache (.ok description)) :
      Entered now catalog uri { index := catalog.index.replace (key uri) description, cache := cache }
        (.ok ((catalog.index.remove (key uri)).addAll description.operations).2)

theorem entered_indexFile (now : Moment) (catalog : Catalog) (uri : String) :
    Entered now catalog uri (catalog.indexFile now uri).1 (catalog.indexFile now uri).2 := by
  cases spells : FileUri.canonical uri.toList with
  | error fault =>
    simp only [indexFile, spells]
    exact .refused spells
  | ok spelled =>
    have isKey : String.ofList spelled = key uri := (FileUri.key_of_ok spells).symm
    have spellsKey : FileUri.canonical uri.toList = .ok (key uri).toList := by
      rw [spells, ← isKey, String.toList_ofList]
    have found := fetched_obtain now catalog.cache (key uri)
    simp only [indexFile, spells, isKey]
    generalize Catalog.obtain now catalog.cache (key uri) = outcome at found
    obtain ⟨cache, result⟩ := outcome
    cases result with
    | error error =>
      cases found with
      | unread fails => exact .failed spellsKey fails
    | ok description => exact .stored spellsKey found

theorem Entered.eq_of_error {now : Moment} {catalog next : Catalog} {uri : String} {error : Error}
    (entered : Entered now catalog uri next (.error error)) : next = catalog := by
  cases entered with
  | refused names => rfl
  | failed spells fails => rfl

/-! ## Forgetting -/

/-- A catalog without what belongs to a uri, and with everything else as it was. -/
structure Forgets (catalog : Catalog) (uri : String) (next : Catalog) : Prop where
  operations : next.index.operations = catalog.index.operations.filter fun entry =>
    entry.2.fileUri != key (key uri) && entry.2.fileUri != key uri
  descriptions : next.index.descriptions = catalog.index.descriptions.filter fun entry =>
    entry.1 != key (key uri)
  /-- Entries of the cache stay with their times and counts. -/
  entries : next.cache.entries = catalog.cache.entries.filter fun entry => entry.1 != key (key uri)
  lifetime : next.cache.lifetime = catalog.cache.lifetime
  ofFile : ∀ file, file ≠ key (key uri) → file ≠ key uri →
    next.index.ofFile file = catalog.index.ofFile file
  description? : ∀ other, key other ≠ key (key uri) →
    next.index.description? other = catalog.index.description? other
  hits? : ∀ other, key other ≠ key (key uri) →
    next.cache.hits? other = catalog.cache.hits? other
  /-- Two uris can be meant only where a drive hides behind a slash. -/
  single : ¬FileUri.HidesDrive uri.toList → key (key uri) = key uri

theorem ofFile_remove {index : OperationIndex} {uri file : String} (other : file ≠ key uri)
    (apart : file ≠ uri) : (index.remove uri).ofFile file = index.ofFile file := by
  rw [OperationIndex.ofFile, OperationIndex.ofFile, OperationIndex.remove, List.filter_filter]
  apply List.filter_congr
  intro entry member
  by_cases own : entry.2.fileUri = file
  · simp [own, other, apart]
  · simp [own]

theorem settles_of_not_hidesDrive {uri : String} (visible : ¬FileUri.HidesDrive uri.toList) :
    Settles uri := by
  intro spelled spells
  obtain ⟨again, spellsAgain, -, same⟩ := FileUri.canonical_again spells
  rw [FileUri.IsCanonical, spellsAgain, same.mpr visible]

theorem forgets_invalidate (catalog : Catalog) (uri : String) :
    Forgets catalog uri (catalog.invalidate uri) where
  operations := rfl
  descriptions := rfl
  entries := rfl
  lifetime := rfl
  ofFile := fun _ other apart => ofFile_remove other apart
  description? := fun _ ne => Fields.get?_erase_of_ne ne _
  hits? := fun _ ne => congrArg (Option.map CacheEntry.hits) (Fields.get?_erase_of_ne ne _)
  single := fun visible => settled_key (settles_of_not_hidesDrive visible)

/-- Whatever the state of the catalog and the text that is given for a uri, reading a description
    without success leaves everything as it was, and reading one anew without success forgets it. -/
theorem keeps_or_forgets_of_error (now : Moment) (catalog next : Catalog) (uri : String)
    (error : Error) :
    (catalog.indexFile now uri = (next, .error error) → next = catalog) ∧
      (catalog.reindexFile now uri = (next, .error error) →
        next = catalog.invalidate uri ∧ Forgets catalog uri next) := by
  refine ⟨?_, ?_⟩
  · intro fails
    have entered := entered_indexFile now catalog uri
    rw [fails] at entered
    exact entered.eq_of_error
  · intro fails
    have entered := entered_indexFile now (catalog.invalidate uri) uri
    rw [reindexFile] at fails
    rw [fails] at entered
    have same : next = catalog.invalidate uri := entered.eq_of_error
    refine ⟨same, ?_⟩
    rw [same]
    exact forgets_invalidate catalog uri

/-- Of two files that were read, one is gone. -/
theorem keeps_or_forgets_lost_twin :
    let catalog := after {} (empty 300)
      [(twins 1 "x", .index "file:///a.json"), (twins 1 "x", .index "file:///b.json")]
    let left : Moment := ⟨⟨.dir 2 [("b.json".toList, .file (declaring "x") 1)], []⟩, 5⟩
    (∃ error, catalog.indexFile left "file:///a.json" = (catalog, .error error)) ∧
      (∃ error, catalog.reindexFile left "file:///a.json" =
        (catalog.invalidate "file:///a.json", .error error)) ∧
      Forgets catalog "file:///a.json" (catalog.reindexFile left "file:///a.json").1 ∧
      (catalog.reindexFile left "file:///a.json").1.index.size = 0 ∧
      (catalog.reindexFile left "file:///a.json").1.cache.size = 1 := by
  intro catalog left
  have fails : (catalog.indexFile left "file:///a.json").2.isOk = false := by decide +kernel
  have failsAnew : (catalog.reindexFile left "file:///a.json").2.isOk = false := by decide +kernel
  have operations : (catalog.reindexFile left "file:///a.json").1.index.size = 0 := by decide +kernel
  have entries : (catalog.reindexFile left "file:///a.json").1.cache.size = 1 := by decide +kernel
  rcases first : catalog.indexFile left "file:///a.json" with ⟨next, result⟩
  rcases second : catalog.reindexFile left "file:///a.json" with ⟨anew, resultAnew⟩
  rw [first] at fails
  rw [second] at failsAnew operations entries
  cases result with
  | ok added => cases fails
  | error error =>
    cases resultAnew with
    | ok added => cases failsAnew
    | error errorAnew =>
      have same := (keeps_or_forgets_of_error left catalog next "file:///a.json" error).1 first
      obtain ⟨forgotten, forgets⟩ :=
        (keeps_or_forgets_of_error left catalog anew "file:///a.json" errorAnew).2 second
      exact ⟨⟨error, by rw [same]⟩, ⟨errorAnew, by rw [forgotten]⟩, forgets, operations, entries⟩

end ApiWorkflow.Catalog
