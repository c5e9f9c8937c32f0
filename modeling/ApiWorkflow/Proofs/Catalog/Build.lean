import ApiWorkflow.Proofs.Catalog.Transparency

/-! # What a build comes to

A build into an empty catalog reads the candidates one after the other, each in place
of what was read of it before. All the same, what is found under an id in the end is
the first operation that declares it, in the order of the candidates and then of the
file; candidates that cannot be read are passed over. The counts of the report are the
sizes of the index when no two candidates have the same key.
-/

namespace ApiWorkflow.Catalog

/-- The first operation that the file at a uri declares under an id; none if the file
    cannot be read. -/
def declaredIn (files : FileSystem) (id uri : String) : Option Operation :=
  (ApiDescription.extract files (FileUri.key uri)).toOption.bind fun extraction =>
    extraction.description.operations.find? fun operation => operation.operationId == id

theorem fileUri_of_declaredIn {files : FileSystem} {id uri : String} {operation : Operation}
    (declares : declaredIn files id uri = some operation) :
    operation.fileUri = FileUri.key uri := by
  unfold declaredIn at declares
  cases reads : ApiDescription.extract files (FileUri.key uri) with
  | error error =>
    rw [reads] at declares
    cases declares
  | ok extraction =>
    rw [reads] at declares
    have belongs := ApiDescription.belongsTo_of_extract reads
    exact belongs.operations operation (List.mem_of_find?_eq_some declares)

theorem declaredIn_congr {files : FileSystem} {id uri other : String}
    (same : FileUri.key uri = FileUri.key other) :
    declaredIn files id uri = declaredIn files id other := by
  rw [declaredIn, declaredIn, same]

/-! ## Reading candidates in turn -/

/-- A catalog into which some candidates have been read at one moment. -/
structure HasRead (now : Moment) (uris : List String) (catalog : Catalog) : Prop where
  coherent : catalog.Coherent
  faithful : Faithful [now] catalog.cache
  found : ∀ id, catalog.index.find? id = uris.findSome? (declaredIn now.files id)
  described : ∀ key, catalog.index.descriptions.get? key ≠ none → key ∈ uris.map FileUri.key

theorem hasRead_empty (now : Moment) (lifetime : Nat) : HasRead now [] (empty lifetime) where
  coherent := coherent_empty lifetime
  faithful := by
    intro entry member
    cases member
  found := fun _ => rfl
  described := by
    intro key there
    exact absurd rfl there

/-- A uri of a file that has a canonical spelling. -/
def IsSpelled (uri : String) : Prop :=
  FileUri.HasScheme uri.toList ∧ FileUri.canonical uri.toList = .ok (FileUri.key uri).toList

theorem consistent_singleton (now : Moment) : Consistent [now] := by
  intro first isFirst second isSecond path time stampFirst stampSecond
  rw [List.mem_singleton.mp isFirst, List.mem_singleton.mp isSecond]

theorem IsSpelled.settled {uri : String} (spelled : IsSpelled uri) :
    FileUri.key (FileUri.key uri) = FileUri.key uri :=
  settled_key (settles_of_hasScheme spelled.1)

section

variable {now : Moment} {uris : List String} {catalog : Catalog} {uri : String}

/-- A candidate adds what it declares and no candidate before it does, whether or not
    one of these has the same key. -/
theorem HasRead.find?_replace (hasRead : HasRead now uris catalog) (spelled : IsSpelled uri)
    {extraction : ApiDescription.Extraction}
    (reads : ApiDescription.extract now.files (FileUri.key uri) = .ok extraction) (id : String) :
    (catalog.index.replace (FileUri.key uri) extraction.description).find? id =
      (uris ++ [uri]).findSome? (declaredIn now.files id) := by
  have own : (extraction.description.operations.find? fun operation =>
      operation.operationId == id) = declaredIn now.files id uri := by
    rw [declaredIn, reads]
    rfl
  rw [OperationIndex.find?_replace hasRead.coherent.wellFormed spelled.settled, own,
    hasRead.found, List.findSome?_append, List.findSome?_singleton]
  cases earlier : uris.findSome? (declaredIn now.files id) with
  | none => rfl
  | some operation =>
    rw [Option.some_or]
    by_cases same : operation.fileUri = FileUri.key uri
    -- The operation is taken away with its description and comes back from the same file.
    · obtain ⟨other, -, declares⟩ := List.exists_of_findSome?_eq_some earlier
      have sameKey := (fileUri_of_declaredIn declares).symm.trans same
      rw [declaredIn_congr sameKey] at declares
      rw [declares, Option.filter_some, if_neg (by simp [same]), Option.none_or]
    · rw [Option.filter_some, if_pos (by simp [same]), Option.some_or]

/-- With a faithful cache, reading a candidate comes to what its file says. -/
theorem Indexed.reads_or_fails {next : Catalog} {result : Except Error Nat}
    (indexed : Indexed now catalog uri next result) (faithful : Faithful [now] catalog.cache)
    (spelled : IsSpelled uri) :
    (∃ error, ApiDescription.extract now.files (FileUri.key uri) = .error error ∧
        next = catalog ∧ result = .error error) ∨
      ∃ extraction, ApiDescription.extract now.files (FileUri.key uri) = .ok extraction ∧
        Faithful [now] next.cache ∧
        next.index = catalog.index.replace (FileUri.key uri) extraction.description ∧
        result = .ok ((catalog.index.remove (FileUri.key uri)).addAll
          extraction.description.operations).2 := by
  have isNow : now ∈ [now] := List.mem_singleton_self now
  cases indexed with
  | refused names => cases names.symm.trans spelled.2
  | failed spells unread =>
    rw [FileUri.key_of_canonical spells]
    left
    obtain ⟨same, -⟩ := unread.faithful (consistent_singleton now) isNow faithful
    rename_i key error
    cases fails : ApiDescription.extract now.files key with
    | error error =>
      rw [fails] at same
      cases same
      exact ⟨error, rfl, rfl, rfl⟩
    | ok extraction =>
      rw [fails] at same
      cases same
  | stored spells found =>
    rw [FileUri.key_of_canonical spells]
    right
    obtain ⟨same, faithfulNext⟩ := found.faithful (consistent_singleton now) isNow faithful
    rename_i key cache description
    cases reads : ApiDescription.extract now.files key with
    | error error =>
      rw [reads] at same
      cases same
    | ok extraction =>
      rw [reads] at same
      cases same
      exact ⟨extraction, rfl, faithfulNext, rfl, rfl⟩

theorem HasRead.indexed (hasRead : HasRead now uris catalog) (spelled : IsSpelled uri)
    {next : Catalog} {result : Except Error Nat}
    (indexed : Indexed now catalog uri next result) : HasRead now (uris ++ [uri]) next := by
  have coherent := hasRead.coherent.indexed (settles_of_hasScheme spelled.1) indexed
  rcases indexed.reads_or_fails hasRead.faithful spelled with
    ⟨error, fails, rfl, -⟩ | ⟨extraction, reads, faithful, index, -⟩
  · refine ⟨coherent, hasRead.faithful, ?_, ?_⟩
    · intro id
      have nothing : declaredIn now.files id uri = none := by
        rw [declaredIn, fails]
        rfl
      rw [hasRead.found, List.findSome?_append, List.findSome?_singleton, nothing, Option.or_none]
    · intro key there
      rw [List.map_append]
      exact List.mem_append_left _ (hasRead.described key there)
  · refine ⟨coherent, faithful, ?_, ?_⟩
    · intro id
      rw [index, hasRead.find?_replace spelled reads]
    · intro key there
      have belongs := ApiDescription.belongsTo_of_extract reads
      rw [index, OperationIndex.get?_descriptions_replace _ spelled.settled belongs] at there
      rw [List.map_append, List.mem_append]
      split at there
      · rename_i same
        exact .inr (List.mem_singleton.mpr same)
      · exact .inl (hasRead.described key there)

theorem HasRead.indexAll (hasRead : HasRead now uris catalog) (report : IndexReport)
    {more : List String} (spelled : ∀ uri ∈ more, IsSpelled uri) :
    HasRead now (uris ++ more) (indexAll now catalog report more).1 := by
  rw [indexAll_eq_foldl]
  induction more generalizing catalog uris with
  | nil =>
    rw [List.append_nil]
    exact hasRead
  | cons uri more ih =>
    have isSpelled := spelled uri List.mem_cons_self
    have next := hasRead.indexed isSpelled
      (indexed_indexFile now catalog (settles_of_hasScheme isSpelled.1))
    rw [List.append_cons]
    exact ih next fun other member => spelled other (List.mem_cons_of_mem _ member)

end

/-! ## Counts -/

/-- The counts of a report are the sizes of an index. -/
structure Counted (index : OperationIndex) (report : IndexReport) : Prop where
  operations : report.operations = index.size
  indexed : report.indexed = index.descriptions.length

theorem Coherent.remove_eq_self {catalog : Catalog} (coherent : catalog.Coherent) {uri : String}
    (settled : FileUri.key uri = uri) (absent : catalog.index.descriptions.get? uri = none) :
    catalog.index.remove uri = catalog.index := by
  have operations : ∀ entry ∈ catalog.index.operations, entry.2.fileUri ≠ uri := by
    intro entry member same
    have found := Fields.get?_of_mem coherent.wellFormed.operations member
    obtain ⟨description, isThere, -⟩ := coherent.listed entry.1 entry.2 found
    rw [same, absent] at isThere
    cases isThere
  have descriptions : ∀ entry ∈ catalog.index.descriptions, entry.1 ≠ uri := by
    intro entry member same
    have found := Fields.get?_of_mem coherent.wellFormed.descriptions member
    rw [same, absent] at found
    cases found
  rw [OperationIndex.remove, settled, Fields.erase, List.filter_eq_self.mpr,
    List.filter_eq_self.mpr]
  · exact fun entry member => bne_iff_ne.mpr (descriptions entry member)
  · intro entry member
    exact (Bool.and_self _).trans (bne_iff_ne.mpr (operations entry member))

theorem Counted.replace {catalog : Catalog} {report : IndexReport}
    (counted : Counted catalog.index report) (coherent : catalog.Coherent) {uri : String}
    (settled : FileUri.key uri = uri) (absent : catalog.index.descriptions.get? uri = none)
    {description : ApiDescription} (belongs : description.BelongsTo uri) :
    Counted (catalog.index.replace uri description)
      { report with
        indexed := report.indexed + 1
        operations := report.operations +
          ((catalog.index.remove uri).addAll description.operations).2 } where
  operations := by
    rw [OperationIndex.size_replace, coherent.remove_eq_self settled absent, counted.operations]
  indexed := by
    rw [OperationIndex.descriptions_replace _ settled belongs,
      coherent.remove_eq_self settled absent, Fields.length_insert _ absent, counted.indexed]

theorem HasRead.get?_eq_none {now : Moment} {uris more : List String} {catalog : Catalog}
    (hasRead : HasRead now uris catalog) {uri : String}
    (distinct : ((uris ++ uri :: more).map FileUri.key).Nodup) :
    catalog.index.descriptions.get? (FileUri.key uri) = none := by
  apply Decidable.byContradiction
  intro there
  rw [List.map_append, List.map_cons, List.nodup_append] at distinct
  exact distinct.2.2 _ (hasRead.described _ there) _ List.mem_cons_self rfl

theorem HasRead.counted_indexAll {now : Moment} {uris more : List String} {catalog : Catalog}
    {report : IndexReport} (hasRead : HasRead now uris catalog)
    (counted : Counted catalog.index report) (spelled : ∀ uri ∈ more, IsSpelled uri)
    (distinct : ((uris ++ more).map FileUri.key).Nodup) :
    Counted (Catalog.indexAll now catalog report more).1.index
      (Catalog.indexAll now catalog report more).2 := by
  induction more generalizing catalog report uris with
  | nil => exact counted
  | cons uri more ih =>
    have isSpelled := spelled uri List.mem_cons_self
    have indexed := indexed_indexFile now catalog (settles_of_hasScheme isSpelled.1)
    rw [Catalog.indexAll]
    generalize catalog.indexFile now uri = outcome at indexed
    obtain ⟨next, result⟩ := outcome
    have readNext := hasRead.indexed isSpelled indexed
    have others : ∀ uri ∈ more, IsSpelled uri :=
      fun other member => spelled other (List.mem_cons_of_mem _ member)
    have absent := hasRead.get?_eq_none distinct
    rw [List.append_cons] at distinct
    rcases indexed.reads_or_fails hasRead.faithful isSpelled with
      ⟨error, -, same, failure⟩ | ⟨extraction, reads, -, index, success⟩
    · dsimp only at same failure
      subst same failure
      exact ih readNext ⟨counted.operations, counted.indexed⟩ others distinct
    · dsimp only at index success
      subst success
      have belongs := ApiDescription.belongsTo_of_extract reads
      refine ih readNext ?_ others distinct
      rw [index]
      exact counted.replace hasRead.coherent isSpelled.settled absent belongs

/-! ## Builds -/

theorem build_of_discover {now : Moment} {settings : DiscoverySettings} {uri : String}
    {uris : List String} (finds : Discovery.discover now.files settings uri = .ok uris)
    (catalog : Catalog) :
    catalog.build now settings uri =
      ((indexAll now catalog { discovered := uris.length } uris).1,
        .ok (indexAll now catalog { discovered := uris.length } uris).2) := by
  rw [build, finds]

/-- What a build from some candidates comes to. -/
structure BuiltFrom (files : FileSystem) (uris : List String) (index : OperationIndex)
    (report : IndexReport) : Prop where
  /-- The first candidate that can be read and declares an id gives the operation, and
      without such a candidate there is none. -/
  found : ∀ id, index.find? id = uris.findSome? (declaredIn files id)
  listed : index.all.length = index.size
  ordered : index.all.Pairwise fun left right => left.operationId < right.operationId
  spelled : ∀ uri ∈ uris, FileUri.canonical uri.toList = .ok (FileUri.key uri).toList
  /-- Two candidates can have one canonical uri only on a drive, where small and capital
      letters of drives and the two kinds of slashes are not told apart. -/
  distinct : (∀ uri ∈ uris, FileUri.IsRooted uri) → (uris.map FileUri.key).Nodup
  counted : (uris.map FileUri.key).Nodup → Counted index report

/-- A build from any document that names a file, into an empty catalog, succeeds, and the
    index is the one that the candidates determine. -/
theorem builtFrom_build_empty (now : Moment) (settings : DiscoverySettings) (lifetime : Nat)
    (uri : String) (path : List Char) (names : FileUri.toPath uri.toList = .ok path) :
    ∃ uris catalog report, Discovery.discover now.files settings uri = .ok uris ∧
      (empty lifetime).build now settings uri = (catalog, .ok report) ∧
      BuiltFrom now.files uris catalog.index report := by
  have finds : Discovery.discover now.files settings uri =
      .ok (Discovery.near now.files settings path) := Discovery.discover_of_toPath names
  generalize Discovery.near now.files settings path = uris at finds
  have spelled : ∀ found ∈ uris, IsSpelled found := fun found member =>
    ⟨Discovery.hasScheme_of_discover finds found member,
      Discovery.canonical_of_discover finds found member⟩
  have start := hasRead_empty now lifetime
  have hasRead := start.indexAll { discovered := uris.length } spelled
  have nothing : Counted (empty lifetime).index { discovered := uris.length } := ⟨rfl, rfl⟩
  refine ⟨uris, _, _, finds, build_of_discover finds _, ?_⟩
  exact
    { found := hasRead.found
      listed := List.length_map _
      ordered := hasRead.coherent.wellFormed.pairwise_all
      spelled := fun found member => (spelled found member).2
      distinct := Discovery.nodup_keys_of_discover finds
      counted := start.counted_indexAll nothing spelled }

theorem builtFrom_build_twins :
    FileUri.toPath "file:///flow.yaml".toList = .ok "/flow.yaml".toList ∧
      (["file:///a.json", "file:///b.json"].map FileUri.key).Nodup ∧ ∃ catalog,
        (empty 300).build (twins 1 "x") {} "file:///flow.yaml" = (catalog, .ok ⟨2, 2, 0, 1⟩) ∧
        BuiltFrom (twins 1 "x").files ["file:///a.json", "file:///b.json"] catalog.index
          ⟨2, 2, 0, 1⟩ := by
  have names : FileUri.toPath "file:///flow.yaml".toList = .ok "/flow.yaml".toList := rfl
  obtain ⟨uris, catalog, report, finds, builds, built⟩ :=
    builtFrom_build_empty (twins 1 "x") {} 300 "file:///flow.yaml" _ names
  have candidates : (Discovery.discover (twins 1 "x").files {} "file:///flow.yaml").toOption =
      some ["file:///a.json", "file:///b.json"] := by decide +kernel
  have counts : ((empty 300).build (twins 1 "x") {} "file:///flow.yaml").2.toOption =
      some ⟨2, 2, 0, 1⟩ := by decide +kernel
  cases (congrArg Except.toOption finds).symm.trans candidates
  cases (congrArg (·.2.toOption) builds).symm.trans counts
  exact ⟨names, by decide +kernel, catalog, builds, built⟩

end ApiWorkflow.Catalog
