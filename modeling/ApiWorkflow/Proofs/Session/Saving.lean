import ApiWorkflow.Proofs.Catalog.Build
import ApiWorkflow.Proofs.Catalog.Failure
import ApiWorkflow.Proofs.Session.Spelling

/-! # What is saved is read from its file

A description that is read anew comes from its file, whatever the cache has of it: what is
forgotten is under the key of the key of the uri, and this is where the cache is asked for the
canonical spelling, for any text at all. So once a description is saved in an editor, the index
has of it what its file declares at that moment.
-/

namespace ApiWorkflow

open FileUri (key)

/-! ## Reading anew -/

namespace Catalog

/-- The ways in which a description is read anew. The cache has no part in them. -/
inductive Renewed (files : FileSystem) (index : OperationIndex) (uri : String) :
    OperationIndex → Except Error Nat → Prop where
  | lost {error : Error} (fails : ApiDescription.extract files (key uri) = .error error) :
      Renewed files index uri (index.remove (key uri)) (.error error)
  | read {extraction : ApiDescription.Extraction}
      (reads : ApiDescription.extract files (key uri) = .ok extraction) :
      Renewed files index uri (index.replace (key uri) extraction.description)
        (.ok ((index.remove (key uri)).addAll extraction.description.operations).2)

theorem Renewed.unique {files : FileSystem} {index next other : OperationIndex} {uri : String}
    {result resultToo : Except Error Nat} (renewed : Renewed files index uri next result)
    (renewedToo : Renewed files index uri other resultToo) : result = resultToo ∧ next = other := by
  cases renewed with
  | lost fails =>
    cases renewedToo with
    | lost failsToo =>
      cases fails.symm.trans failsToo
      exact ⟨rfl, rfl⟩
    | read reads => cases fails.symm.trans reads
  | read reads =>
    cases renewedToo with
    | lost fails => cases reads.symm.trans fails
    | read readsToo =>
      cases reads.symm.trans readsToo
      exact ⟨rfl, rfl⟩

theorem extract_of_refused {files : FileSystem} {uri : String} {fault : FileUri.Fault}
    (names : FileUri.canonical uri.toList = .error fault) :
    ApiDescription.extract files (key uri) = .error (.badUri fault) := by
  rw [FileUri.key_of_error names]
  cases leads : FileUri.toPath uri.toList with
  | error other =>
    rw [FileUri.canonical, leads] at names
    cases names
    simp only [ApiDescription.extract, leads]
  | ok path =>
    obtain ⟨spelled, spells⟩ := FileUri.canonical_of_toPath leads
    cases names.symm.trans spells

theorem Fetched.exists_extract {now : Moment} {cache next : DescriptionCache} {uri : String}
    {description : ApiDescription} (found : Fetched now cache uri next (.ok description))
    (absent : cache.entries.get? (key uri) = none) :
    ∃ extraction, ApiDescription.extract now.files uri = .ok extraction ∧
      extraction.description = description := by
  cases found with
  | served kept => cases absent.symm.trans kept
  | read reads => exact ⟨_, reads, rfl⟩
  | unkept reads => exact ⟨_, reads, rfl⟩

theorem renewed_reindexFile (now : Moment) (catalog : Catalog) (uri : String) :
    Renewed now.files catalog.index uri (catalog.reindexFile now uri).1.index
      (catalog.reindexFile now uri).2 := by
  have entered := entered_indexFile now (catalog.invalidate uri) uri
  -- The cache is asked under the key of the key, which was forgotten.
  have absent : (catalog.invalidate uri).cache.entries.get? (key (key uri)) = none :=
    Fields.get?_erase_self _ _
  rw [reindexFile]
  generalize (catalog.invalidate uri).indexFile now uri = outcome at entered
  obtain ⟨next, result⟩ := outcome
  dsimp only at entered ⊢
  cases entered with
  | refused names => exact .lost (extract_of_refused names)
  | failed spells fails => exact .lost fails
  | stored spells found =>
    obtain ⟨extraction, reads, rfl⟩ := found.exists_extract absent
    have removed : (catalog.invalidate uri).index.remove (key uri) =
        catalog.index.remove (key uri) := OperationIndex.remove_remove _ _
    rw [OperationIndex.replace, removed]
    exact .read reads

/-! ## The operations of a file that was read anew -/

/-- Of the file of a uri, an index has what the file declares and no other file owns. -/
structure UpToDate (files : FileSystem) (uri : String) (before next : OperationIndex) : Prop where
  own : ∀ id operation, (id, operation) ∈ next.ofFile (key uri) ↔
    declaredIn files id uri = some operation ∧
      ∀ owner, (id, owner) ∈ before.operations → owner.fileUri = key uri
  none_of_error : ∀ error, ApiDescription.extract files (key uri) = .error error →
    next.ofFile (key uri) = []
  others : ∀ file, file ≠ key uri → next.ofFile file = before.ofFile file
  /-- The key names the path of the uri, on a drive in the canonical form. -/
  names : ∀ path, FileUri.toPath uri.toList = .ok path → FileUri.toPath (key uri).toList =
    .ok (if FileUri.hasDrive path then FileUri.driveForm path else path)

theorem toPath_key {uri : String} {path : List Char} (file : FileUri.HasScheme uri.toList)
    (names : FileUri.toPath uri.toList = .ok path) : FileUri.toPath (key uri).toList =
      .ok (if FileUri.hasDrive path then FileUri.driveForm path else path) := by
  have spells := (FileUri.canonical_eq_ok_iff file).mpr ⟨path, names, rfl⟩
  rw [FileUri.key_of_ok spells, String.toList_ofList,
    FileUri.toPath_ofAbsolute (FileUri.isNamed_of_toPath file names)]
  cases drive : FileUri.hasDrive path with
  | true => rw [if_pos rfl, FileUri.driveForm_eq_settle drive]
  | false => rw [if_neg Bool.false_ne_true, FileUri.settle_of_not_hasDrive drive]

section

variable {files : FileSystem} {index next : OperationIndex} {uri : String}
  {result : Except Error Nat}

theorem Renewed.wellFormed (renewed : Renewed files index uri next result)
    (wellFormed : index.WellFormed) : next.WellFormed := by
  cases renewed with
  | lost fails => exact wellFormed.remove _
  | read reads => exact wellFormed.replace _ _

theorem Renewed.find?_eq (renewed : Renewed files index uri next result)
    (wellFormed : index.WellFormed) (settled : key (key uri) = key uri) (id : String) :
    next.find? id =
      ((index.find? id).filter fun operation => operation.fileUri != key uri).or
        (declaredIn files id uri) := by
  cases renewed with
  | lost fails =>
    rw [OperationIndex.find?_remove wellFormed settled, declaredIn, fails]
    exact Option.or_none.symm
  | read reads =>
    rw [OperationIndex.find?_replace wellFormed settled, declaredIn, reads]
    rfl

theorem Renewed.mem_ofFile_iff (renewed : Renewed files index uri next result)
    (wellFormed : index.WellFormed) (settled : key (key uri) = key uri) {id : String}
    {operation : Operation} :
    (id, operation) ∈ next.ofFile (key uri) ↔ declaredIn files id uri = some operation ∧
      ∀ owner, (id, owner) ∈ index.operations → owner.fileUri = key uri := by
  rw [OperationIndex.mem_ofFile_iff (renewed.wellFormed wellFormed),
    renewed.find?_eq wellFormed settled, Option.or_eq_some_iff,
    ← OperationIndex.find?_remove_eq_none_iff wellFormed settled,
    OperationIndex.find?_remove wellFormed settled]
  constructor
  · rintro ⟨kept | ⟨isFree, declares⟩, own⟩
    · exact absurd own (bne_iff_ne.mp (Option.filter_eq_some_iff.mp kept).2)
    · exact ⟨declares, isFree⟩
  · rintro ⟨declares, isFree⟩
    exact ⟨.inr ⟨isFree, declares⟩, fileUri_of_declaredIn declares⟩

theorem Renewed.ofFile_eq (renewed : Renewed files index uri next result)
    (wellFormed : index.WellFormed) (settled : key (key uri) = key uri) {file : String}
    (other : file ≠ key uri) : next.ofFile file = index.ofFile file := by
  apply (renewed.wellFormed wellFormed).ofFile_eq wellFormed
  intro id
  apply Option.ext
  intro operation
  simp only [renewed.find?_eq wellFormed settled, Option.filter_eq_some_iff, Option.or_eq_some_iff,
    beq_iff_eq, bne_iff_ne]
  constructor
  · rintro ⟨⟨before, -⟩ | ⟨-, declares⟩, same⟩
    · exact ⟨before, same⟩
    · exact absurd (same.symm.trans (fileUri_of_declaredIn declares)) other
  · rintro ⟨before, same⟩
    exact ⟨.inl ⟨before, same ▸ other⟩, same⟩

theorem Renewed.upToDate (renewed : Renewed files index uri next result)
    (wellFormed : index.WellFormed) (file : FileUri.HasScheme uri.toList) :
    UpToDate files uri index next := by
  have settled : key (key uri) = key uri := settled_key (settles_of_hasScheme file)
  exact
    { own := fun id operation => renewed.mem_ofFile_iff wellFormed settled
      none_of_error := by
        intro error fails
        apply List.eq_nil_iff_forall_not_mem.mpr
        rintro ⟨id, operation⟩ member
        have declares := ((renewed.mem_ofFile_iff wellFormed settled).mp member).1
        rw [declaredIn, fails] at declares
        cases declares
      others := fun _ other => renewed.ofFile_eq wellFormed settled other
      names := fun _ names => toPath_key file names }

end

end Catalog

/-! ## Sessions -/

namespace Session

/-- The session once the text of a save is kept, before anything is read. -/
def withSaved (s : Session) (uri : String) : Option String → Session
  | some text => if text.isEmpty then s else s.store uri text
  | none => s

/-- A session that operations of sessions and of catalogs lead to, at any times. -/
inductive Reached (settings : Settings) : Session → Prop where
  | start : Reached settings (new settings)
  | opened {s : Session} (now : Moment) (uri text : String) (reached : Reached settings s) :
      Reached settings (s.openText now uri text).1
  | changed {s : Session} (uri text : String) (reached : Reached settings s) :
      Reached settings (s.changeText uri text).1
  | saved {s : Session} (now : Moment) (uri : String) (text : Option String)
      (reached : Reached settings s) : Reached settings (s.saveText now uri text).1
  | closed {s : Session} (uri : String) (reached : Reached settings s) :
      Reached settings (s.closeText uri)
  | asked {s : Session} (now : Moment) (request : Catalog.Request) (reached : Reached settings s) :
      Reached settings (s.withCatalog (s.catalog.handle s.settings.discovery now request).1)

theorem catalog_withSaved (s : Session) (uri : String) (text : Option String) :
    (s.withSaved uri text).catalog = s.catalog := by
  unfold withSaved
  split
  · split <;> rfl
  · rfl

theorem catalog_saveText (now : Moment) (s : Session) (uri : String) (text : Option String) :
    (s.saveText now uri text).1.catalog =
      if (s.withSaved uri text).isDescriptionFile uri then (s.catalog.reindexFile now uri).1
      else s.catalog := by
  have kept := catalog_withSaved s uri text
  have saves : s.saveText now uri text = (if (s.withSaved uri text).isDescriptionFile uri then
      ({ s.withSaved uri text with
          catalog := ((s.withSaved uri text).catalog.reindexFile now uri).1 }, _)
      else (s.withSaved uri text, _)) := rfl
  rw [saves, kept]
  split
  · rfl
  · exact kept

end Session

theorem Catalog.wellFormed_move {catalog : Catalog} (wellFormed : catalog.index.WellFormed)
    (m : Catalog.Move) : (catalog.move m).index.WellFormed := by
  cases m with
  | read now uri =>
    have entered := Catalog.entered_indexFile now catalog uri
    rw [Catalog.move]
    generalize catalog.indexFile now uri = outcome at entered
    obtain ⟨next, result⟩ := outcome
    cases entered with
    | refused names => exact wellFormed
    | failed spells fails => exact wellFormed
    | stored spells found => exact wellFormed.replace _ _
  | forget uri => exact wellFormed.remove _

theorem Catalog.handle_induction {invariant : Catalog → Prop}
    (step : ∀ catalog m, invariant catalog → invariant (Catalog.move catalog m)) {catalog : Catalog}
    (start : invariant catalog) (settings : DiscoverySettings) (now : Moment)
    (request : Catalog.Request) : invariant (catalog.handle settings now request).1 := by
  rw [Catalog.handle_eq_foldl]
  generalize request.moves settings now = moves
  induction moves generalizing catalog with
  | nil => exact start
  | cons m moves ih => exact ih (step catalog m start)

namespace Session

/-- What holds of an empty catalog and is kept by every move holds in every session. -/
theorem Reached.catalog_induction {invariant : Catalog → Prop} {settings : Settings}
    (start : invariant (Catalog.empty settings.cache.lifetime))
    (step : ∀ catalog m, invariant catalog → invariant (Catalog.move catalog m)) {s : Session}
    (reached : Reached settings s) : invariant s.catalog := by
  induction reached with
  | start => exact start
  | opened now uri text reached ih =>
    rename_i s
    have built := Catalog.handle_induction step ih s.settings.discovery now (.build uri)
    rw [openText]
    split
    · exact built
    · exact ih
  | changed uri text reached ih => exact ih
  | saved now uri text reached ih =>
    rename_i s
    rw [catalog_saveText]
    split
    · exact Catalog.handle_induction step ih s.settings.discovery now (.reindex uri)
    · exact ih
  | closed uri reached ih => exact ih
  | asked now request reached ih => exact Catalog.handle_induction step ih _ now request

theorem Reached.wellFormed {settings : Settings} {s : Session} (reached : Reached settings s) :
    s.catalog.index.WellFormed := by
  have step : ∀ (catalog : Catalog) (m : Catalog.Move), catalog.index.WellFormed →
      (catalog.move m).index.WellFormed := fun _ m wellFormed => Catalog.wellFormed_move wellFormed m
  exact Reached.catalog_induction OperationIndex.wellFormed_empty step reached

/-- Reading a description anew gives the same, whatever the cache has, for any text in place of a
    uri. So after a description is saved, in whatever spelling and in whatever session, the index
    has of it what its file declares. -/
theorem upToDate_of_saveText :
    (∀ (now : Moment) (index : OperationIndex) (cache other : DescriptionCache) (uri : String),
      (Catalog.reindexFile now ⟨index, cache⟩ uri).2 =
          (Catalog.reindexFile now ⟨index, other⟩ uri).2 ∧
        (Catalog.reindexFile now ⟨index, cache⟩ uri).1.index =
          (Catalog.reindexFile now ⟨index, other⟩ uri).1.index) ∧
      ∀ (settings : Settings) (s : Session) (now : Moment) (uri : String) (text : Option String),
        Reached settings s → FileUri.HasScheme uri.toList →
        (s.withSaved uri text).isDescriptionFile uri = true →
        Catalog.UpToDate now.files uri s.catalog.index (s.saveText now uri text).1.catalog.index := by
  refine ⟨?_, ?_⟩
  · intro now index cache other uri
    exact (Catalog.renewed_reindexFile now ⟨index, cache⟩ uri).unique
      (Catalog.renewed_reindexFile now ⟨index, other⟩ uri)
  · intro settings s now uri text reached file marked
    rw [catalog_saveText, if_pos marked]
    exact (Catalog.renewed_reindexFile now s.catalog uri).upToDate reached.wellFormed file

/-- The file has another text with the time of change that the cache knows. -/
theorem upToDate_of_saveText_twins :
    let s := ((new {}).withCatalog ((new {}).catalog.handle {} (Catalog.twins 1 "x")
      (.build "file:///flow.yaml")).1)
    let uri := "file://localhost/a%2ejson"
    Reached {} s ∧ (s.withSaved uri none).isDescriptionFile uri = true ∧
      s.catalog.index.all.map (·.operationId) = ["x"] ∧
      (s.saveText (Catalog.twins 1 "y") uri none).1.catalog.index.all.map (·.operationId) = ["y"] ∧
      Catalog.UpToDate (Catalog.twins 1 "y").files uri s.catalog.index
        (s.saveText (Catalog.twins 1 "y") uri none).1.catalog.index := by
  intro s uri
  have reached : Reached {} s := .asked (Catalog.twins 1 "x") (.build "file:///flow.yaml") .start
  have marked : (s.withSaved uri none).isDescriptionFile uri = true := by decide +kernel
  exact ⟨reached, marked, by decide +kernel, by decide +kernel,
    upToDate_of_saveText.2 {} s (Catalog.twins 1 "y") uri none reached (by decide +kernel) marked⟩

end Session

end ApiWorkflow
