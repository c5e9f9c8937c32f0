import ApiWorkflow.Proofs.Catalog.Build
import ApiWorkflow.Proofs.Description.History

/-! # Building again

As long as no file changes, building again gives the same report and the same index: what a
candidate adds is what the index has of it in the end, whatever was read before. Only the cache
can tell that a build was not the first one, by its counts.
-/

namespace ApiWorkflow.Catalog

/-! ## The index that candidates determine -/

/-- The description of the file under a key; none if the file cannot be read. -/
def descriptionIn (files : FileSystem) (key : String) : Option ApiDescription :=
  (ApiDescription.extract files key).toOption.map (·.description)

/-- The index has the descriptions of the candidates that can be read, and no others. -/
def Describes (files : FileSystem) (uris : List String) (index : OperationIndex) : Prop :=
  ∀ key, index.descriptions.get? key =
    if key ∈ uris.map FileUri.key then descriptionIn files key else none

section

variable {files : FileSystem} {time : Nat} {uris more : List String} {uri : String}
  {catalog next : Catalog}

theorem HasRead.anytime (hasRead : HasRead ⟨files, time⟩ uris catalog) (later : Nat) :
    HasRead ⟨files, later⟩ uris catalog where
  coherent := hasRead.coherent
  faithful := by
    intro entry member
    obtain ⟨past, isPast, read⟩ := hasRead.faithful entry member
    cases List.mem_singleton.mp isPast
    exact ⟨_, List.mem_singleton_self _, read⟩
  found := hasRead.found
  described := hasRead.described

theorem findSome?_append_of_subset {α β : Type} {first rest : List α} (again : rest ⊆ first)
    (f : α → Option β) : (first ++ rest).findSome? f = first.findSome? f := by
  rw [List.findSome?_append]
  cases found : first.findSome? f with
  | some value => rfl
  | none =>
    rw [Option.none_or, List.findSome?_eq_none_iff]
    exact fun other member => List.findSome?_eq_none_iff.mp found other (again member)

theorem HasRead.of_again (hasRead : HasRead ⟨files, time⟩ (uris ++ more) catalog)
    (again : more ⊆ uris) : HasRead ⟨files, time⟩ uris catalog where
  coherent := hasRead.coherent
  faithful := hasRead.faithful
  found := by
    intro id
    rw [hasRead.found, findSome?_append_of_subset again]
  described := by
    intro key there
    have member := hasRead.described key there
    rw [List.map_append, List.mem_append] at member
    exact member.elim id fun isAgain => List.map_subset _ again isAgain

theorem Describes.indexed {result : Except Error Nat}
    (describes : Describes files uris catalog.index)
    (faithful : Faithful [⟨files, time⟩] catalog.cache) (spelled : IsSpelled uri)
    (indexed : Indexed ⟨files, time⟩ catalog uri next result) :
    Describes files (uris ++ [uri]) next.index := by
  intro key
  rcases indexed.reads_or_fails faithful spelled with
    ⟨error, fails, rfl, -⟩ | ⟨extraction, reads, -, index, -⟩
  · rw [describes, List.map_append]
    by_cases same : key = FileUri.key uri
    · simp [same, descriptionIn, fails, Except.toOption]
    · simp [same]
  · have belongs := ApiDescription.belongsTo_of_extract reads
    rw [index, OperationIndex.get?_descriptions_replace _ spelled.settled belongs, describes,
      List.map_append]
    by_cases same : key = FileUri.key uri
    · simp [same, descriptionIn, reads, Except.toOption]
    · simp [same]

theorem Describes.indexAll (describes : Describes files uris catalog.index)
    (hasRead : HasRead ⟨files, time⟩ uris catalog) (report : IndexReport)
    (spelled : ∀ uri ∈ more, IsSpelled uri) :
    Describes files (uris ++ more) (indexAll ⟨files, time⟩ catalog report more).1.index := by
  rw [indexAll_eq_foldl]
  induction more generalizing catalog uris with
  | nil =>
    rw [List.append_nil]
    exact describes
  | cons uri more ih =>
    obtain ⟨isSpelled, others⟩ := List.forall_mem_cons.mp spelled
    have indexed := indexed_indexFile ⟨files, time⟩ catalog (settles_of_hasScheme isSpelled.1)
    rw [List.append_cons]
    exact ih (describes.indexed hasRead.faithful isSpelled indexed)
      (hasRead.indexed isSpelled indexed) others

theorem Describes.of_again {index : OperationIndex} (describes : Describes files (uris ++ more) index)
    (again : more ⊆ uris) : Describes files uris index := by
  have same : ∀ key, key ∈ (uris ++ more).map FileUri.key ↔ key ∈ uris.map FileUri.key := by
    intro key
    rw [List.map_append, List.mem_append]
    exact ⟨fun member => member.elim id fun isAgain => List.map_subset _ again isAgain, .inl⟩
  intro key
  rw [describes]
  simp only [same]

/-- The candidates determine the index. -/
theorem HasRead.index_eq {later : Nat} {other : Catalog} (left : HasRead ⟨files, time⟩ uris catalog)
    (right : HasRead ⟨files, later⟩ uris other) (describes : Describes files uris catalog.index)
    (describesToo : Describes files uris other.index) : catalog.index = other.index := by
  apply left.coherent.wellFormed.ext right.coherent.wellFormed
  · intro id
    rw [left.found, right.found]
  · intro key
    rw [describes, describesToo]

theorem index_indexAll_empty {lifetime : Nat} (report : IndexReport)
    (spelled : ∀ uri ∈ uris, IsSpelled uri) (later : Nat) :
    (indexAll ⟨files, later⟩ (empty lifetime) report uris).1.index =
      (indexAll ⟨files, time⟩ (empty lifetime) report uris).1.index := by
  have nothing : Describes files [] (empty lifetime).index := fun _ => rfl
  have left := hasRead_empty ⟨files, later⟩ lifetime
  have right := hasRead_empty ⟨files, time⟩ lifetime
  exact (left.indexAll report spelled).index_eq (right.indexAll report spelled)
    (nothing.indexAll left report spelled) (nothing.indexAll right report spelled)

end

/-! ## What a candidate adds -/

section

variable {files : FileSystem} {time later : Nat} {before again more : List String} {uri : String}
  {left right : Catalog}

theorem filter_findSome?_declaredIn {id : String} (member : uri ∈ before) :
    ((before ++ more).findSome? (declaredIn files id)).filter
        (fun operation => operation.fileUri == FileUri.key uri) =
      (before.findSome? (declaredIn files id)).filter
        fun operation => operation.fileUri == FileUri.key uri := by
  rw [List.findSome?_append]
  cases found : before.findSome? (declaredIn files id) with
  | some operation => rfl
  | none =>
    have nothing := List.findSome?_eq_none_iff.mp found uri member
    rw [Option.none_or, Option.filter_none, Option.filter_eq_none_iff]
    intro operation isLater own
    obtain ⟨other, -, declares⟩ := List.exists_of_findSome?_eq_some isLater
    have sameKey : FileUri.key other = FileUri.key uri :=
      (fileUri_of_declaredIn declares).symm.trans (beq_iff_eq.mp own)
    rw [declaredIn_congr sameKey, nothing] at declares
    cases declares

/-- A candidate adds the same after any candidates, if the same is found in the end. -/
theorem HasRead.indexFile_eq (isLeft : HasRead ⟨files, time⟩ before left)
    (isRight : HasRead ⟨files, later⟩ again right) (spelled : IsSpelled uri)
    (same : ∀ id, (before ++ uri :: more).findSome? (declaredIn files id) =
      (again ++ uri :: more).findSome? (declaredIn files id)) :
    (left.indexFile ⟨files, time⟩ uri).2 = (right.indexFile ⟨files, later⟩ uri).2 := by
  have settles := settles_of_hasScheme spelled.1
  have onLeft := (indexed_indexFile ⟨files, time⟩ left settles).reads_or_fails
    isLeft.faithful spelled
  have onRight := (indexed_indexFile ⟨files, later⟩ right settles).reads_or_fails
    isRight.faithful spelled
  rcases onLeft with ⟨error, fails, -, isError⟩ | ⟨extraction, reads, -, -, added⟩
  · rcases onRight with ⟨other, failsToo, -, isOther⟩ | ⟨extraction, reads, -, -, -⟩
    · cases fails.symm.trans failsToo
      rw [isError, isOther]
    · cases fails.symm.trans reads
  · rcases onRight with ⟨other, fails, -, -⟩ | ⟨other, readsToo, -, -, addedToo⟩
    · cases reads.symm.trans fails
    · cases reads.symm.trans readsToo
      have belongs := ApiDescription.belongsTo_of_extract reads
      have wellFormed := isLeft.coherent.wellFormed
      have wellFormedToo := isRight.coherent.wellFormed
      rw [added, addedToo,
        OperationIndex.added_eq_length_ofFile wellFormed spelled.settled belongs,
        OperationIndex.added_eq_length_ofFile wellFormedToo spelled.settled belongs]
      apply congrArg fun operations : Fields Operation => Except.ok (List.length operations)
      apply (wellFormed.replace _ _).ofFile_eq (wellFormedToo.replace _ _)
      intro id
      have here {uris : List String} : uri ∈ uris ++ [uri] :=
        List.mem_append_right _ List.mem_cons_self
      rw [isLeft.find?_replace spelled reads, isRight.find?_replace spelled reads,
        ← filter_findSome?_declaredIn here, ← List.append_cons, same, List.append_cons,
        filter_findSome?_declaredIn here]

theorem HasRead.report_indexAll_eq (isLeft : HasRead ⟨files, time⟩ before left)
    (isRight : HasRead ⟨files, later⟩ again right) (spelled : ∀ uri ∈ more, IsSpelled uri)
    (same : ∀ id, (before ++ more).findSome? (declaredIn files id) =
      (again ++ more).findSome? (declaredIn files id)) (report : IndexReport) :
    (Catalog.indexAll ⟨files, time⟩ left report more).2 =
      (Catalog.indexAll ⟨files, later⟩ right report more).2 := by
  induction more generalizing left right before again report with
  | nil => rfl
  | cons uri more ih =>
    obtain ⟨isSpelled, others⟩ := List.forall_mem_cons.mp spelled
    have settles := settles_of_hasScheme isSpelled.1
    have result := isLeft.indexFile_eq isRight isSpelled same
    have nextLeft := isLeft.indexed isSpelled (indexed_indexFile ⟨files, time⟩ left settles)
    have nextRight := isRight.indexed isSpelled (indexed_indexFile ⟨files, later⟩ right settles)
    simp only [List.append_cons _ uri more] at same
    rw [Catalog.indexAll, Catalog.indexAll]
    generalize left.indexFile ⟨files, time⟩ uri = outcome at result nextLeft
    generalize right.indexFile ⟨files, later⟩ uri = outcomeToo at result nextRight
    obtain ⟨left, added⟩ := outcome
    obtain ⟨right, addedToo⟩ := outcomeToo
    cases result
    cases added with
    | ok count => exact ih nextLeft nextRight others same _
    | error error => exact ih nextLeft nextRight others same _

end

/-! ## What the cache counts -/

/-- Whether the file under a key can be read. -/
def isReadable (files : FileSystem) (key : String) : Bool :=
  (ApiDescription.extract files key).isOk

theorem isReadable_of_ok {files : FileSystem} {key : String}
    {extraction : ApiDescription.Extraction}
    (reads : ApiDescription.extract files key = .ok extraction) : isReadable files key = true := by
  rw [isReadable, reads]
  rfl

theorem isReadable_of_error {files : FileSystem} {key : String} {error : Error}
    (fails : ApiDescription.extract files key = .error error) : isReadable files key = false := by
  rw [isReadable, fails]
  rfl

/-- A cache that was asked for some candidates at some times: it has those that can be read, and
    has served each one every time but the first. -/
structure CountsReads (files : FileSystem) (times : List Nat) (read : List String)
    (cache : DescriptionCache) : Prop where
  lasting : ∀ now ∈ times, DescriptionCache.Lasting cache.lifetime times now
  ordered : cache.entries.Ordered
  current : ∀ key entry, cache.entries.get? key = some entry →
    DescriptionCache.modified files key.toList = .ok entry.modified ∧ entry.storedAt ∈ times
  counted : ∀ key n, (∃ entry, cache.entries.get? key = some entry ∧ entry.hits = n) ↔
    isReadable files key ∧ (read.map FileUri.key).count key = n + 1

section

variable {files : FileSystem} {times : List Nat} {time : Nat} {read more : List String}
  {uri : String} {cache next : DescriptionCache}

theorem countsReads_empty {lifetime : Nat}
    (lasting : ∀ now ∈ times, DescriptionCache.Lasting lifetime times now) :
    CountsReads files times [] (empty lifetime).cache where
  lasting := lasting
  ordered := Fields.ordered_nil
  current := nofun
  counted := by
    intro key n
    simp [empty, Fields.get?]

theorem CountsReads.served?_eq (counts : CountsReads files times read cache) (isNow : time ∈ times)
    (key : String) : cache.served? ⟨files, time⟩ key.toList = cache.entries.get? key := by
  rw [DescriptionCache.served?, String.ofList_toList]
  cases found : cache.entries.get? key with
  | none => rfl
  | some entry =>
    obtain ⟨changed, stored⟩ := counts.current key entry found
    have young := (counts.lasting time isNow).isExpired_eq_false stored
    rw [Option.filter_some, if_pos]
    rw [young, DescriptionCache.isCurrent_iff.mpr changed]
    rfl

theorem count_keys_concat (key : String) :
    ((read ++ [uri]).map FileUri.key).count key =
      (read.map FileUri.key).count key + if FileUri.key uri = key then 1 else 0 := by
  rw [List.map_append, List.count_append, List.map_singleton, List.count_singleton]
  simp only [beq_iff_eq]

/-- Asking for a candidate that can be read leaves an entry with the number of times that it was
    asked for before. -/
theorem CountsReads.insert (counts : CountsReads files times read cache)
    (readable : isReadable files (FileUri.key uri)) {entry : CacheEntry}
    (changed : DescriptionCache.modified files (FileUri.key uri).toList = .ok entry.modified)
    (stored : entry.storedAt ∈ times)
    (asked : (read.map FileUri.key).count (FileUri.key uri) = entry.hits) :
    CountsReads files times (read ++ [uri])
      { cache with entries := cache.entries.insert (FileUri.key uri) entry } where
  lasting := counts.lasting
  ordered := Fields.ordered_insert _ _ counts.ordered
  current := by
    intro key other found
    rw [Fields.get?_insert] at found
    split at found
    · rename_i same
      cases found
      rw [same]
      exact ⟨changed, stored⟩
    · exact counts.current key other found
  counted := by
    intro key n
    rw [Fields.get?_insert, count_keys_concat]
    split
    · rename_i same
      subst same
      simp [readable, asked]
    · rename_i ne
      rw [if_neg (Ne.symm ne), Nat.add_zero]
      exact counts.counted key n

theorem CountsReads.obtained (counts : CountsReads files times read cache) (isNow : time ∈ times)
    {result : Except Error ApiDescription}
    (obtained : Obtained ⟨files, time⟩ cache (FileUri.key uri) next result) :
    CountsReads files times (read ++ [uri]) next := by
  have kept := counts.served?_eq isNow (FileUri.key uri)
  cases obtained with
  | @served entry fresh =>
    rw [kept] at fresh
    obtain ⟨readable, asked⟩ := (counts.counted _ _).mp ⟨entry, fresh, rfl⟩
    obtain ⟨changed, stored⟩ := counts.current _ entry fresh
    exact counts.insert readable changed stored asked
  | unread missed fails =>
    have unreadable := isReadable_of_error fails
    refine ⟨counts.lasting, counts.ordered, counts.current, ?_⟩
    intro key n
    rw [counts.counted, count_keys_concat]
    split
    · rename_i same
      simp [← same, unreadable]
    · exact Iff.rfl
  | read missed reads changed =>
    rw [kept] at missed
    have readable := isReadable_of_ok reads
    apply counts.insert readable changed isNow
    -- Had it been asked for, it would be in the cache.
    cases asked : (read.map FileUri.key).count (FileUri.key uri) with
    | zero => rfl
    | succ n =>
      obtain ⟨entry, found, -⟩ := (counts.counted _ n).mpr ⟨readable, asked⟩
      cases missed.symm.trans found

theorem CountsReads.indexAll {catalog : Catalog} (counts : CountsReads files times read catalog.cache)
    (isNow : time ∈ times) (report : IndexReport) (spelled : ∀ uri ∈ more, IsSpelled uri) :
    CountsReads files times (read ++ more)
      (Catalog.indexAll ⟨files, time⟩ catalog report more).1.cache := by
  rw [indexAll_eq_foldl]
  induction more generalizing catalog read with
  | nil =>
    rw [List.append_nil]
    exact counts
  | cons uri more ih =>
    obtain ⟨isSpelled, others⟩ := List.forall_mem_cons.mp spelled
    have indexed := indexed_indexFile ⟨files, time⟩ catalog (settles_of_hasScheme isSpelled.1)
    rw [List.append_cons]
    refine ih ?_ others
    rw [move]
    generalize (catalog.indexFile ⟨files, time⟩ uri).1 = next at indexed
    generalize (catalog.indexFile ⟨files, time⟩ uri).2 = result at indexed
    cases indexed with
    | refused names => cases names.symm.trans isSpelled.2
    | failed spells unread =>
      rw [← FileUri.key_of_canonical spells] at unread
      exact counts.obtained isNow unread
    | stored spells found =>
      rw [← FileUri.key_of_canonical spells] at found
      exact counts.obtained isNow found

theorem HasRead.indexed_indexAll {catalog : Catalog} (hasRead : HasRead ⟨files, time⟩ read catalog)
    (spelled : ∀ uri ∈ more, IsSpelled uri) (report : IndexReport) :
    (Catalog.indexAll ⟨files, time⟩ catalog report more).2.indexed =
      report.indexed + more.countP fun uri => isReadable files (FileUri.key uri) := by
  induction more generalizing catalog read report with
  | nil => rfl
  | cons uri more ih =>
    obtain ⟨isSpelled, others⟩ := List.forall_mem_cons.mp spelled
    have indexed := indexed_indexFile ⟨files, time⟩ catalog (settles_of_hasScheme isSpelled.1)
    rw [Catalog.indexAll]
    generalize catalog.indexFile ⟨files, time⟩ uri = outcome at indexed
    obtain ⟨next, result⟩ := outcome
    have readNext := hasRead.indexed isSpelled indexed
    rcases indexed.reads_or_fails hasRead.faithful isSpelled with
      ⟨error, fails, -, failure⟩ | ⟨extraction, reads, -, -, success⟩
    · dsimp only at failure
      subst failure
      rw [List.countP_cons, isReadable_of_error fails]
      exact ih readNext others _
    · dsimp only at success
      subst success
      refine (ih readNext others _).trans ?_
      rw [List.countP_cons, isReadable_of_ok reads, if_pos rfl]
      exact Nat.add_right_comm _ _ _

end

/-! ## Builds in turn -/

/-- Builds from one document at some times, with the same files. -/
def rebuild (files : FileSystem) (uri : String) (times : List Nat) : List (Moment × Request) :=
  times.map fun time => (⟨files, time⟩, .build uri)

section

variable {files : FileSystem} {settings : DiscoverySettings} {uri : String} {uris : List String}
  {catalog : Catalog}

theorem isSpelled_of_discover (finds : Discovery.discover files settings uri = .ok uris) :
    ∀ uri ∈ uris, IsSpelled uri := fun found member =>
  ⟨Discovery.hasScheme_of_discover finds found member,
    Discovery.canonical_of_discover finds found member⟩

theorem handle_build {time : Nat} (finds : Discovery.discover files settings uri = .ok uris) :
    catalog.handle settings ⟨files, time⟩ (.build uri) =
      ((indexAll ⟨files, time⟩ catalog { discovered := uris.length } uris).1,
        .report (.ok (indexAll ⟨files, time⟩ catalog { discovered := uris.length } uris).2)) := by
  have builds := @build_of_discover ⟨files, time⟩ settings uri uris finds catalog
  rw [handle, builds]
  rfl

/-- Where the candidates have been read, builds report what the first one did, and the index stays. -/
theorem HasRead.trace_rebuild {first lifetime : Nat}
    (finds : Discovery.discover files settings uri = .ok uris)
    (spelled : ∀ uri ∈ uris, IsSpelled uri) (hasRead : HasRead ⟨files, first⟩ uris catalog)
    (describes : Describes files uris catalog.index) (times : List Nat) :
    trace settings catalog (rebuild files uri times) = List.replicate times.length
      (catalog.index, .report (.ok (Catalog.indexAll ⟨files, first⟩ (empty lifetime)
        { discovered := uris.length } uris).2)) := by
  induction times generalizing catalog with
  | nil => rfl
  | cons time times ih =>
    have again : uris ⊆ uris := List.Subset.refl uris
    have hasRead := hasRead.anytime time
    have report := (hasRead_empty ⟨files, first⟩ lifetime).report_indexAll_eq hasRead spelled
      (fun id => (findSome?_append_of_subset again _).symm) { discovered := uris.length }
    have next := (hasRead.indexAll { discovered := uris.length } spelled).of_again again
    have describesNext :=
      (describes.indexAll hasRead { discovered := uris.length } spelled).of_again again
    have same := next.index_eq hasRead describesNext describes
    have builds := @handle_build files settings uri uris catalog time finds
    generalize Catalog.indexAll ⟨files, time⟩ catalog { discovered := uris.length } uris = outcome
      at report next describesNext same builds
    rw [rebuild, List.map_cons, trace, builds, ← report, List.length_cons, List.replicate_succ,
      ← same]
    exact congrArg _ (ih (next.anytime first) describesNext)

theorem CountsReads.after_rebuild {times : List Nat} {read : List String}
    (counts : CountsReads files times read catalog.cache)
    (finds : Discovery.discover files settings uri = .ok uris)
    (spelled : ∀ uri ∈ uris, IsSpelled uri) {rounds : List Nat} (within : rounds ⊆ times) :
    CountsReads files times (read ++ rounds.flatMap fun _ => uris)
      (after settings catalog (rebuild files uri rounds)).cache := by
  induction rounds generalizing catalog read with
  | nil =>
    rw [List.flatMap_nil, List.append_nil]
    exact counts
  | cons time rounds ih =>
    obtain ⟨isNow, others⟩ := List.cons_subset.mp within
    have next := counts.indexAll isNow { discovered := uris.length } spelled
    have builds := @handle_build files settings uri uris catalog time finds
    rw [rebuild, List.map_cons, after, List.foldl_cons, builds, List.flatMap_cons,
      ← List.append_assoc]
    exact ih next others

end

/-! ## The cache after builds -/

/-- A cache that has served every candidate in each of some builds but the first. -/
structure ServesAgain (files : FileSystem) (uris : List String) (builds : Nat) (report : IndexReport)
    (cache : DescriptionCache) : Prop where
  indexed : report.indexed = uris.countP fun uri => isReadable files (FileUri.key uri)
  /-- One entry for each candidate that was indexed. -/
  entries : (cache.entries.map Prod.fst).Perm
    ((uris.filter fun uri => isReadable files (FileUri.key uri)).map FileUri.key)
  hits : ∀ entry ∈ cache.entries, entry.2.hits = builds - 1
  total : cache.totalHits = (builds - 1) * report.indexed

theorem count_keys_flatMap (rounds : List Nat) (uris : List String) (key : String) :
    ((rounds.flatMap fun _ => uris).map FileUri.key).count key =
      rounds.length * (uris.map FileUri.key).count key := by
  induction rounds with
  | nil => rw [List.flatMap_nil, List.length_nil, Nat.zero_mul, List.map_nil, List.count_nil]
  | cons time rounds ih =>
    rw [List.flatMap_cons, List.map_append, List.count_append, ih, List.length_cons, Nat.succ_mul,
      Nat.add_comm]

theorem foldl_hits {entries : Fields CacheEntry} {n : Nat} (start : Nat)
    (hits : ∀ entry ∈ entries, entry.2.hits = n) :
    entries.foldl (fun total entry => total + entry.2.hits) start = start + n * entries.length := by
  induction entries generalizing start with
  | nil => rfl
  | cons entry entries ih =>
    obtain ⟨first, others⟩ := List.forall_mem_cons.mp hits
    rw [List.foldl_cons, ih _ others, first, List.length_cons, Nat.mul_succ, Nat.add_assoc,
      Nat.add_comm n]

theorem CountsReads.servesAgain {files : FileSystem} {uris : List String} {times rounds : List Nat}
    {report : IndexReport} {cache : DescriptionCache}
    (counts : CountsReads files times (rounds.flatMap fun _ => uris) cache) (begun : rounds ≠ [])
    (indexed : report.indexed = uris.countP fun uri => isReadable files (FileUri.key uri))
    (distinct : (uris.map FileUri.key).Nodup) :
    ServesAgain files uris rounds.length report cache := by
  have positive : 0 < rounds.length := List.length_pos_iff.mpr begun
  have asked : ∀ key n, (∃ entry, cache.entries.get? key = some entry ∧ entry.hits = n) ↔
      isReadable files key ∧ key ∈ uris.map FileUri.key ∧ rounds.length = n + 1 := by
    intro key n
    rw [counts.counted, count_keys_flatMap, distinct.count]
    split
    · rename_i member
      simp [member]
    · rename_i absent
      simp [absent]
  have hits : ∀ entry ∈ cache.entries, entry.2.hits = rounds.length - 1 := by
    intro entry member
    have found := Fields.get?_of_mem counts.ordered member
    obtain ⟨-, -, built⟩ := (asked entry.1 entry.2.hits).mp ⟨entry.2, found, rfl⟩
    omega
  have entries : (cache.entries.map Prod.fst).Perm
      ((uris.filter fun uri => isReadable files (FileUri.key uri)).map FileUri.key) := by
    apply (List.perm_ext_iff_of_nodup (Fields.nodup_names counts.ordered)
      (distinct.sublist (List.filter_sublist.map _))).mpr
    intro key
    rw [Fields.mem_names_iff, Option.ne_none_iff_exists']
    constructor
    · rintro ⟨entry, found⟩
      obtain ⟨readable, member, -⟩ := (asked key entry.hits).mp ⟨entry, found, rfl⟩
      obtain ⟨uri, isCandidate, rfl⟩ := List.mem_map.mp member
      exact List.mem_map.mpr ⟨uri, List.mem_filter.mpr ⟨isCandidate, readable⟩, rfl⟩
    · intro member
      obtain ⟨uri, kept, rfl⟩ := List.mem_map.mp member
      obtain ⟨isCandidate, readable⟩ := List.mem_filter.mp kept
      obtain ⟨entry, found, -⟩ := (asked (FileUri.key uri) (rounds.length - 1)).mpr
        ⟨readable, List.mem_map_of_mem isCandidate, by omega⟩
      exact ⟨entry, found⟩
  refine ⟨indexed, entries, hits, ?_⟩
  have size : cache.entries.length = report.indexed := by
    rw [indexed, List.countP_eq_length_filter]
    simpa only [List.length_map] using entries.length_eq
  rw [DescriptionCache.totalHits, foldl_hits 0 hits, size, Nat.zero_add]

/-- Building any number of times from a document that names a file, starting with nothing and
    before anything gets too old, gives the same report and the same index every time, and all
    builds but the first are served from the cache. -/
theorem trace_rebuild_eq_replicate (files : FileSystem) (settings : DiscoverySettings)
    (lifetime : Nat) (uri : String) (path : List Char) (names : FileUri.toPath uri.toList = .ok path)
    (times : List Nat) (begun : times ≠ [])
    (lasting : ∀ now ∈ times, DescriptionCache.Lasting lifetime times now) :
    ∃ uris index report, Discovery.discover files settings uri = .ok uris ∧
      trace settings (empty lifetime) (rebuild files uri times) =
        List.replicate times.length (index, .report (.ok report)) ∧
      ((∀ found ∈ uris, FileUri.IsRooted found) → (uris.map FileUri.key).Nodup) ∧
      ((uris.map FileUri.key).Nodup → ServesAgain files uris times.length report
        (after settings (empty lifetime) (rebuild files uri times)).cache) := by
  have finds : Discovery.discover files settings uri =
      .ok (Discovery.near files settings path) := Discovery.discover_of_toPath names
  generalize Discovery.near files settings path = uris at finds
  have spelled := isSpelled_of_discover finds
  have counts := (countsReads_empty lasting).after_rebuild finds spelled (List.Subset.refl times)
  cases times with
  | nil => exact absurd rfl begun
  | cons first times =>
    have start := hasRead_empty ⟨files, first⟩ lifetime
    have hasRead := start.indexAll { discovered := uris.length } spelled
    have nothing : Describes files [] (empty lifetime).index := fun _ => rfl
    have describes := nothing.indexAll start { discovered := uris.length } spelled
    have indexed := start.indexed_indexAll spelled { discovered := uris.length }
    rw [Nat.zero_add] at indexed
    have builds := @handle_build files settings uri uris (empty lifetime) first finds
    have traces : trace settings (empty lifetime) (rebuild files uri (first :: times)) =
        List.replicate (first :: times).length
          ((indexAll ⟨files, first⟩ (empty lifetime) { discovered := uris.length } uris).1.index,
            .report (.ok (indexAll ⟨files, first⟩ (empty lifetime)
              { discovered := uris.length } uris).2)) := by
      rw [rebuild, List.map_cons, trace, builds, List.length_cons, List.replicate_succ]
      exact congrArg _ (hasRead.trace_rebuild finds spelled describes times)
    exact ⟨uris, _, _, finds, traces, Discovery.nodup_keys_of_discover finds,
      counts.servesAgain begun indexed⟩

/-- Files of which two describe the same operation and one cannot be read. -/
def oneBroken : FileSystem where
  root := .dir 1 [("a.json".toList, .file (declaring "x") 1), ("b.json".toList, .file (declaring "x") 2),
    ("c.json".toList, .file (Text.Utf8.encode "\"openapi\"".toList ++ [255]) 3)]
  workDir := []

/-- The last of three builds comes when the whole lifetime of the first one has passed. -/
theorem trace_rebuild_oneBroken_eq_replicate :
    let times := [0, 7, 300000000000]
    (∀ now ∈ times, DescriptionCache.Lasting 300 times now) ∧ ∃ index,
      trace {} (empty 300) (rebuild oneBroken "file:///flow.yaml" times) =
        List.replicate 3 (index, .report (.ok ⟨3, 2, 1, 1⟩)) ∧
      ServesAgain oneBroken ["file:///a.json", "file:///b.json", "file:///c.json"] 3 ⟨3, 2, 1, 1⟩
        (after {} (empty 300) (rebuild oneBroken "file:///flow.yaml" times)).cache := by
  intro times
  have lasting : ∀ now ∈ times, DescriptionCache.Lasting 300 times now := by decide
  obtain ⟨uris, index, report, finds, traces, -, serves⟩ :=
    trace_rebuild_eq_replicate oneBroken {} 300 "file:///flow.yaml" "/flow.yaml".toList rfl
      times (by decide) lasting
  have candidates : (Discovery.discover oneBroken {} "file:///flow.yaml").toOption =
      some ["file:///a.json", "file:///b.json", "file:///c.json"] := by decide +kernel
  have counts : ((trace {} (empty 300) (rebuild oneBroken "file:///flow.yaml" times)).map
      fun line => match line.2 with
        | .report result => result.toOption
        | _ => none) = List.replicate 3 (some ⟨3, 2, 1, 1⟩) := by decide +kernel
  cases (congrArg Except.toOption finds).symm.trans candidates
  rw [traces] at counts
  cases counts
  exact ⟨lasting, index, traces, serves (by decide +kernel)⟩

end ApiWorkflow.Catalog
