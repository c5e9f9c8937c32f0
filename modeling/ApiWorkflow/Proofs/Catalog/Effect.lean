import ApiWorkflow.Proofs.Catalog.Failure

/-! # What reading one description does

A description takes the place of what the index had of its uri: records of other files stay, and
of the new ones the first under each id comes in, unless a record of another file has the id. Only
in one case can the counts be wrong: a path with a drive behind its first slash is kept in the
cache under the canonical spelling of another path, so that the description of one file can be
served for the other.
-/

namespace ApiWorkflow

open FileUri (key)

namespace OperationIndex

/-- An index that was given a description in place of what it had of a uri. -/
structure Receives (index : OperationIndex) (uri : String) (description : ApiDescription)
    (gained : List Operation) (next : OperationIndex) : Prop where
  operations : next.operations.Perm
    (index.operations.filter (fun entry => entry.2.fileUri != uri) ++ entriesOf gained)
  /-- The first record of each id that is declared, where no record of another file has the id. -/
  gained_iff : ∀ operation, operation ∈ gained ↔
    description.operations.find? (fun other => other.operationId == operation.operationId) =
        some operation ∧
      ∀ owner, (operation.operationId, owner) ∈ index.operations → owner.fileUri = uri
  distinct : (gained.map (·.operationId)).Nodup
  descriptions : ∀ other, next.descriptions.get? other =
    if other = uri then some description else index.descriptions.get? other

section

variable {index : OperationIndex} {uri : String} {description : ApiDescription}

theorem get?_descriptions_replace_of_key (index : OperationIndex) (settled : key uri = uri)
    (filed : key description.uri = uri) (other : String) :
    (index.replace uri description).descriptions.get? other =
      if other = uri then some description else index.descriptions.get? other := by
  rw [replace, addDescription, filed, descriptions_addAll, Fields.get?_insert]
  split
  · rfl
  · rename_i ne
    rw [get?_descriptions_remove index settled, if_neg ne]

theorem receives_replace (wellFormed : index.WellFormed) (settled : key uri = uri)
    (filed : key description.uri = uri) :
    Receives index uri description ((index.remove uri).taken description.operations)
      (index.replace uri description) where
  operations := by
    rw [← operations_remove index settled]
    exact operations_addAll_perm (index.remove uri) description.operations
  gained_iff := by
    intro operation
    rw [mem_taken_iff, find?_remove_eq_none_iff wellFormed settled]
  distinct := nodup_taken _ _
  descriptions := get?_descriptions_replace_of_key index settled filed

/-- What is found once a description was received stays if it is received again. -/
theorem replace_replace (wellFormed : index.WellFormed) (settled : key uri = uri)
    (filed : key description.uri = uri) :
    (index.replace uri description).replace uri description = index.replace uri description := by
  have once := wellFormed.replace uri description
  apply (once.replace uri description).ext once
  · intro id
    rw [find?_replace once settled, find?_replace wellFormed settled]
    cases kept : (index.find? id).filter fun operation => operation.fileUri != uri with
    | some operation =>
      have other := (Option.filter_eq_some_iff.mp kept).2
      rw [Option.some_or, Option.filter_some, if_pos other, Option.some_or]
    | none =>
      -- Either it stays, or it goes and comes back.
      rw [Option.none_or]
      cases description.operations.find? fun operation => operation.operationId == id with
      | none => rfl
      | some operation =>
        rw [Option.filter_some]
        split <;> rfl
  · intro other
    rw [get?_descriptions_replace_of_key _ settled filed,
      get?_descriptions_replace_of_key _ settled filed]
    split <;> rfl

theorem ofFile_replace_eq_nil (wellFormed : index.WellFormed) (settled : key uri = uri)
    (belongs : description.BelongsTo description.uri) (strange : description.uri ≠ uri) :
    (index.replace uri description).ofFile uri = [] := by
  apply List.filter_eq_nil_iff.mpr
  intro entry member own
  have found := Fields.get?_of_mem (wellFormed.replace uri description).operations member
  change (index.replace uri description).find? entry.1 = some entry.2 at found
  rw [find?_replace wellFormed settled, Option.or_eq_some_iff, Option.filter_eq_some_iff] at found
  rcases found with ⟨-, other⟩ | ⟨-, declared⟩
  · exact absurd (beq_iff_eq.mp own) (bne_iff_ne.mp other)
  · have theirs := belongs.operations _ (List.mem_of_find?_eq_some declared)
    exact strange (theirs.symm.trans (beq_iff_eq.mp own))

theorem taken_replace_eq_nil (wellFormed : index.WellFormed) (settled : key uri = uri)
    (belongs : description.BelongsTo description.uri) (strange : description.uri ≠ uri) :
    ((index.replace uri description).remove uri).taken description.operations = [] := by
  apply List.eq_nil_iff_forall_not_mem.mpr
  intro operation member
  obtain ⟨declared, free⟩ := mem_taken_iff.mp member
  have theirs := belongs.operations _ (List.mem_of_find?_eq_some declared)
  rw [find?_remove (wellFormed.replace uri description) settled, find?_replace wellFormed settled,
    declared] at free
  cases kept : (index.find? operation.operationId).filter fun operation =>
      operation.fileUri != uri with
  | some owner =>
    have other := (Option.filter_eq_some_iff.mp kept).2
    rw [kept, Option.some_or, Option.filter_some, if_pos other] at free
    cases free
  | none =>
    rw [kept, Option.none_or, Option.filter_some, theirs, if_pos (bne_iff_ne.mpr strange)] at free
    cases free

/-- Giving a description twice adds as much the second time exactly if it has the uri that it is
    given under, or has nothing to add. -/
theorem added_replace_eq (wellFormed : index.WellFormed) (settled : key uri = uri)
    (belongs : description.BelongsTo description.uri) (filed : key description.uri = uri)
    {added again : Nat} (isAdded : added = ((index.remove uri).addAll description.operations).2)
    (isAgain : again =
      (((index.replace uri description).remove uri).addAll description.operations).2) :
    (description.uri = uri → added = ((index.replace uri description).ofFile uri).length ∧
        again = added) ∧
      (description.uri ≠ uri → ((index.replace uri description).ofFile uri).length = 0 ∧
        again = 0) := by
  constructor
  · intro own
    rw [own] at belongs
    have twice := added_eq_length_ofFile (wellFormed.replace uri description) settled belongs
    rw [replace_replace wellFormed settled filed] at twice
    have once := added_eq_length_ofFile wellFormed settled belongs
    exact ⟨isAdded.trans once, (isAgain.trans twice).trans (isAdded.trans once).symm⟩
  · intro strange
    refine ⟨?_, ?_⟩
    · rw [ofFile_replace_eq_nil wellFormed settled belongs strange, List.length_nil]
    · rw [isAgain, ← length_taken, taken_replace_eq_nil wellFormed settled belongs strange,
        List.length_nil]

end

end OperationIndex

namespace Catalog

open OperationIndex (Receives)

/-! ## Where the cache keeps a description -/

/-- Which uri a description under a key may have: any of this key, or only the key itself. -/
inductive Naming where
  | sameKey
  | itself

def Naming.Allows : Naming → String → String → Prop
  | .sameKey, under, uri => key uri = under
  | .itself, under, uri => uri = under ∧ key uri = under

theorem Naming.Allows.key_eq {naming : Naming} {under uri : String}
    (allows : naming.Allows under uri) : key uri = under := by
  cases naming with
  | sameKey => exact allows
  | itself => exact allows.2

theorem Naming.allows_of_settled (naming : Naming) {uri : String} (settled : key uri = uri) :
    naming.Allows (key uri) uri := by
  cases naming with
  | sameKey => exact rfl
  | itself => exact ⟨settled.symm, rfl⟩

theorem belongsTo_own {description : ApiDescription} {uri : String}
    (belongs : description.BelongsTo uri) : description.BelongsTo description.uri := by
  rw [belongs.itself]
  exact belongs

/-- The descriptions of a cache belong to uris that they may have under their keys. -/
def Named (naming : Naming) (cache : DescriptionCache) : Prop :=
  ∀ entry ∈ cache.entries, naming.Allows entry.1 entry.2.description.uri ∧
    entry.2.description.BelongsTo entry.2.description.uri

section

variable {naming : Naming} {now : Moment} {cache next : DescriptionCache} {uri : String}
  {result : Except Error ApiDescription}

theorem Named.insert (named : Named naming cache) {entry : CacheEntry}
    (allows : naming.Allows uri entry.description.uri)
    (belongs : entry.description.BelongsTo entry.description.uri) :
    Named naming { cache with entries := cache.entries.insert uri entry } := by
  intro other member
  rcases Fields.mem_insert member with rfl | before
  · exact ⟨allows, belongs⟩
  · exact named other before

theorem Named.fetched (named : Named naming cache) (own : naming.Allows (key uri) uri)
    (found : Fetched now cache uri next result) :
    Named naming next ∧ ∀ description, result = .ok description →
      naming.Allows (key uri) description.uri ∧ description.BelongsTo description.uri := by
  cases found with
  | served kept =>
    obtain ⟨allows, belongs⟩ := named _ (Fields.mem_of_get? kept)
    refine ⟨named.insert allows belongs, ?_⟩
    rintro description ⟨⟩
    exact ⟨allows, belongs⟩
  | unread fails =>
    refine ⟨named, ?_⟩
    rintro description ⟨⟩
  | @read extraction modified reads =>
    have belongs := ApiDescription.belongsTo_of_extract reads
    have allows : naming.Allows (key uri) extraction.description.uri := by
      rw [belongs.itself]
      exact own
    refine ⟨named.insert allows (belongsTo_own belongs), ?_⟩
    rintro description ⟨⟩
    exact ⟨allows, belongsTo_own belongs⟩
  | unkept reads =>
    have belongs := ApiDescription.belongsTo_of_extract reads
    refine ⟨named, ?_⟩
    rintro description ⟨⟩
    rw [belongs.itself]
    exact ⟨own, belongs⟩

end

theorem Named.move {catalog : Catalog} (named : Named .sameKey catalog.cache) (m : Move) :
    Named .sameKey (catalog.move m).cache := by
  cases m with
  | read now uri =>
    have entered := entered_indexFile now catalog uri
    rw [Catalog.move]
    generalize catalog.indexFile now uri = outcome at entered
    obtain ⟨next, result⟩ := outcome
    cases entered with
    | refused names => exact named
    | failed spells fails => exact named
    | stored spells found => exact (named.fetched rfl found).1
  | forget uri => exact fun entry member => named entry (List.mem_filter.mp member).1

theorem named_after (settings : DiscoverySettings) (lifetime : Nat)
    (run : List (Moment × Request)) : Named .sameKey (after settings (empty lifetime) run).cache := by
  have start : Named .sameKey (empty lifetime).cache := by
    intro entry member
    cases member
  have step : ∀ (catalog : Catalog) (m : Move), True → Named .sameKey catalog.cache →
      Named .sameKey (catalog.move m).cache := fun _ m _ named => named.move m
  exact after_induction_of_allowed (fun _ _ => trivial) settings (fun _ _ => trivial) start step

theorem named_of_visible (settings : DiscoverySettings) (lifetime : Nat)
    {run : List (Moment × Request)}
    (visible : ∀ event ∈ run, ¬FileUri.HidesDrive event.2.uri.toList) :
    Named .itself (after settings (empty lifetime) run).cache := by
  have coherent : (after settings (empty lifetime) run).Coherent :=
    after_induction_of_allowed (fun _ file => settles_of_hasScheme file) settings
      (fun event member => settles_of_not_hidesDrive (visible event member))
      (coherent_empty lifetime) fun _ m settles coherent => coherent.move m settles
  intro entry member
  obtain ⟨same, belongs⟩ := named_after settings lifetime run entry member
  exact ⟨⟨(coherent.cached entry member).itself, same⟩, belongs⟩

/-! ## Reading twice -/

/-- The files are as they were, and what a cache has under a key has not got too old since. -/
structure SoonAfter (cache : DescriptionCache) (uri : String) (now later : Moment) : Prop where
  files : later.files = now.files
  lasting : ∀ entry, cache.entries.get? uri = some entry →
    cache.isExpired later.time entry = cache.isExpired now.time entry

theorem obtain_of_indexFile {now : Moment} {catalog next : Catalog} {uri : String} {n : Nat}
    (added : catalog.indexFile now uri = (next, .ok n)) :
    FileUri.canonical uri.toList = .ok (key uri).toList ∧ ∃ description,
      Catalog.obtain now catalog.cache (key uri) = (next.cache, .ok description) ∧
      next.index = catalog.index.replace (key uri) description ∧
      n = ((catalog.index.remove (key uri)).addAll description.operations).2 := by
  cases spells : FileUri.canonical uri.toList with
  | error fault =>
    simp only [indexFile, spells] at added
    cases added
  | ok spelled =>
    have isKey : String.ofList spelled = key uri := (FileUri.key_of_ok spells).symm
    simp only [indexFile, spells, isKey] at added
    rcases found : Catalog.obtain now catalog.cache (key uri) with ⟨cache, result⟩
    rw [found] at added
    cases result with
    | error error => cases added
    | ok description =>
      cases added
      refine ⟨?_, description, rfl, rfl, rfl⟩
      rw [← isKey, String.toList_ofList]

theorem indexFile_of_obtain {now : Moment} {catalog : Catalog} {uri : String}
    {description : ApiDescription} (spells : FileUri.canonical uri.toList = .ok (key uri).toList)
    (found : (Catalog.obtain now catalog.cache (key uri)).2 = .ok description) :
    (catalog.indexFile now uri).1.index = catalog.index.replace (key uri) description ∧
      (catalog.indexFile now uri).2 =
        .ok ((catalog.index.remove (key uri)).addAll description.operations).2 := by
  simp only [indexFile, spells, String.ofList_toList]
  generalize Catalog.obtain now catalog.cache (key uri) = outcome at found
  obtain ⟨cache, result⟩ := outcome
  cases found
  exact ⟨rfl, rfl⟩

theorem served?_of_get? (cache : DescriptionCache) (now : Moment) {uri : String}
    {entry : CacheEntry} (kept : cache.entries.get? uri = some entry) :
    cache.served? now uri.toList =
      if !cache.isExpired now.time entry && DescriptionCache.isCurrent now.files uri.toList entry
      then some entry else none := by
  rw [DescriptionCache.served?, String.ofList_toList, kept, Option.filter_some]

/-- What was come by once is come by again. -/
theorem Obtained.again {now later : Moment} {cache next : DescriptionCache} {uri : String}
    {description : ApiDescription} (found : Obtained now cache uri next (.ok description))
    (canonical : FileUri.IsCanonical uri.toList) (soon : SoonAfter next uri now later) :
    (Catalog.obtain later next uri).2 = .ok description := by
  have second := obtained_obtain later next canonical
  generalize Catalog.obtain later next uri = outcome at second
  obtain ⟨last, result⟩ := outcome
  dsimp only at second ⊢
  cases found with
  | served fresh =>
    rename_i entry
    have kept := Fields.get?_insert_self uri { entry with hits := entry.hits + 1 } cache.entries
    have usable := (Option.filter_eq_some_iff.mp fresh).2
    have lasting := soon.lasting _ kept
    have again := served?_of_get? { cache with
      entries := cache.entries.insert uri { entry with hits := entry.hits + 1 } } later kept
    rw [lasting, soon.files] at again
    have again := again.trans (if_pos usable)
    cases second with
    | served freshToo =>
      cases again.symm.trans freshToo
      rfl
    | unread missed fails => cases again.symm.trans missed
    | read missed reads changed => cases again.symm.trans missed
  | read missed reads changed =>
    rename_i extraction modified
    have kept := Fields.get?_insert_self uri
      (CacheEntry.mk extraction.description modified now.time 0) cache.entries
    cases second with
    | served fresh =>
      have isKept := (Option.filter_eq_some_iff.mp fresh).1
      rw [String.ofList_toList] at isKept
      cases kept.symm.trans isKept
      rfl
    | unread missedToo fails =>
      rw [soon.files, reads] at fails
      cases fails
    | read missedToo readsToo changedToo =>
      rw [soon.files, reads] at readsToo
      cases readsToo
      rfl

/-! ## The effect of one reading -/

/-- What comes of reading a `file://` uri with success, whatever the index, and whatever runs have
    filled the cache. The number is that of the records which the index has of the file in the end,
    and the same the second time, exactly if the description is that of the uri or adds nothing;
    and it is that of the uri if no uri of the runs hides a drive. -/
theorem receives_indexFile (settings : DiscoverySettings) (lifetime : Nat)
    (run : List (Moment × Request)) (index : OperationIndex) (wellFormed : index.WellFormed)
    (now : Moment) (uri : String) (file : FileUri.HasScheme uri.toList) (next : Catalog) (n : Nat)
    (added : Catalog.indexFile now ⟨index, (after settings (empty lifetime) run).cache⟩ uri =
      (next, .ok n)) :
    ∃ description gained,
      Catalog.obtain now (after settings (empty lifetime) run).cache (key uri) =
        (next.cache, .ok description) ∧
      Receives index (key uri) description gained next.index ∧ n = gained.length ∧
      (∀ later, SoonAfter next.cache (key uri) now later →
        (next.indexFile later uri).1.index = next.index) ∧
      ((n = (next.index.ofFile (key uri)).length ∧
          ∀ later, SoonAfter next.cache (key uri) now later → (next.indexFile later uri).2 = .ok n) ↔
        description.uri = key uri ∨ n = 0) ∧
      ((∀ event ∈ run, ¬FileUri.HidesDrive event.2.uri.toList) → description.uri = key uri) := by
  have settles := settles_of_hasScheme file
  have settled : key (key uri) = key uri := settled_key settles
  obtain ⟨spells, description, isObtained, isReplaced, isAdded⟩ := obtain_of_indexFile added
  have canonical : FileUri.IsCanonical (key uri).toList := settles _ spells
  have fetched := fetched_obtain now (after settings (empty lifetime) run).cache (key uri)
  have obtained := obtained_obtain now (after settings (empty lifetime) run).cache canonical
  rw [isObtained] at fetched obtained
  obtain ⟨sameKey, belongs⟩ := ((named_after settings lifetime run).fetched rfl fetched).2 _ rfl
  have filed : key description.uri = key uri := Eq.trans sameKey settled
  have again : ∀ later, SoonAfter next.cache (key uri) now later →
      (next.indexFile later uri).1.index = next.index ∧ (next.indexFile later uri).2 =
        .ok ((next.index.remove (key uri)).addAll description.operations).2 := by
    intro later soon
    obtain ⟨indexAgain, resultAgain⟩ := indexFile_of_obtain spells (obtained.again canonical soon)
    rw [isReplaced, OperationIndex.replace_replace wellFormed settled filed] at indexAgain
    exact ⟨indexAgain.trans isReplaced.symm, resultAgain⟩
  have counts := OperationIndex.added_replace_eq wellFormed settled belongs filed isAdded rfl
  rw [← isReplaced] at counts
  refine ⟨description, (index.remove (key uri)).taken description.operations, isObtained, ?_, ?_,
    fun later soon => (again later soon).1, ?_, ?_⟩
  · rw [isReplaced]
    exact OperationIndex.receives_replace wellFormed settled filed
  · rw [isAdded, OperationIndex.length_taken]
  · constructor
    · rintro ⟨isCount, -⟩
      by_cases own : description.uri = key uri
      · exact .inl own
      · exact .inr (isCount.trans (counts.2 own).1)
    · intro rightful
      by_cases own : description.uri = key uri
      · obtain ⟨isCount, same⟩ := counts.1 own
        refine ⟨isCount, fun later soon => ?_⟩
        rw [(again later soon).2, same]
      · obtain ⟨nothing, nothingAgain⟩ := counts.2 own
        have zero : n = 0 := rightful.resolve_left own
        refine ⟨zero.trans nothing.symm, fun later soon => ?_⟩
        rw [(again later soon).2, nothingAgain, zero]
  · intro visible
    have named := named_of_visible settings lifetime visible
    obtain ⟨isOwn, -⟩ := (named.fetched (Naming.itself.allows_of_settled settled) fetched).2 _ rfl
    exact isOwn.1.trans settled

/-- A description that the cache serves is read into an index with a record of another file, and
    once more when its whole lifetime has passed. -/
theorem receives_indexFile_beside_twin :
    let later : Moment := { twins 1 "x" with time := 300000000000 }
    let run := [(twins 1 "x", Request.index "file:///a.json")]
    let index := (after {} (empty 300) [(twins 1 "y", Request.index "file:///b.json")]).index
    ∃ next description gained,
      Catalog.indexFile (twins 1 "x") ⟨index, (after {} (empty 300) run).cache⟩
        "file://localhost/a%2ejson" = (next, .ok 1) ∧
      next.cache.totalHits = 1 ∧ next.index.size = 2 ∧
      Receives index (key "file://localhost/a%2ejson") description gained next.index ∧
      gained.length = 1 ∧ description.uri = key "file://localhost/a%2ejson" ∧
      (next.index.ofFile (key "file://localhost/a%2ejson")).length = 1 ∧
      (next.indexFile later "file://localhost/a%2ejson").2 = .ok 1 := by
  intro later run index
  have wellFormed : index.WellFormed := (coherent_after {} 300 (by decide +kernel)).wellFormed
  have visible : ∀ event ∈ run, ¬FileUri.HidesDrive event.2.uri.toList := by
    intro event member
    rw [List.mem_singleton.mp member]
    exact FileUri.not_hidesDrive_of_isNamed rfl (.inr ⟨"a.json".toList, rfl, rfl⟩)
  have adds : (Catalog.indexFile (twins 1 "x") ⟨index, (after {} (empty 300) run).cache⟩
      "file://localhost/a%2ejson").2.toOption = some 1 := by decide +kernel
  have hits : (Catalog.indexFile (twins 1 "x") ⟨index, (after {} (empty 300) run).cache⟩
      "file://localhost/a%2ejson").1.cache.totalHits = 1 := by decide +kernel
  have size : (Catalog.indexFile (twins 1 "x") ⟨index, (after {} (empty 300) run).cache⟩
      "file://localhost/a%2ejson").1.index.size = 2 := by decide +kernel
  have stored : ((Catalog.indexFile (twins 1 "x") ⟨index, (after {} (empty 300) run).cache⟩
      "file://localhost/a%2ejson").1.cache.entries.get? (key "file://localhost/a%2ejson")).map
        (·.storedAt) = some 0 := by decide +kernel
  have lifetime : (Catalog.indexFile (twins 1 "x") ⟨index, (after {} (empty 300) run).cache⟩
      "file://localhost/a%2ejson").1.cache.lifetime = 300 := by decide +kernel
  rcases added : Catalog.indexFile (twins 1 "x") ⟨index, (after {} (empty 300) run).cache⟩
    "file://localhost/a%2ejson" with ⟨next, result⟩
  rw [added] at adds hits size stored lifetime
  cases result with
  | error error => cases adds
  | ok n =>
    cases adds
    obtain ⟨description, gained, -, receives, counts, -, rightful, own⟩ :=
      receives_indexFile {} 300 run index wellFormed (twins 1 "x") "file://localhost/a%2ejson"
        (by decide +kernel) next 1 added
    obtain ⟨isCount, again⟩ := rightful.mpr (.inl (own visible))
    have soon : SoonAfter next.cache (key "file://localhost/a%2ejson") (twins 1 "x") later := by
      refine ⟨rfl, ?_⟩
      intro entry kept
      rw [kept, Option.map_some, Option.some_inj] at stored
      dsimp only at lifetime
      simp [DescriptionCache.isExpired, stored, lifetime, later, twins]
    exact ⟨next, description, gained, rfl, hits, size, receives, counts.symm, own visible,
      isCount.symm, again later soon⟩

/-- A world with a file on each of two drives, which differ in the case of their letters only. -/
def drives : Moment where
  files :=
    { root := .dir 1 [("C:".toList, .dir 1 [("x.json".toList, .file (declaring "x") 1)]),
        ("c:".toList, .dir 1 [("x.json".toList, .file (declaring "y") 1)]),
        ("g.json".toList, .file (declaring "x") 1)]
      workDir := [] }
  time := 0

/-- A run in which a path hides a drive behind its first slash. -/
def misfiling : List (Moment × Request) :=
  [(drives, .index "file:///g.json"), (drives, .index "/C:/x.json"),
    (drives, .invalidate "file:///g.json")]

/-- The description of one drive is served for the other: it adds a record, of which the uri has
    none, and adds nothing the second time. -/
theorem indexFile_miscounts_on_hidden_drive :
    let first := (after {} (empty 300) misfiling).indexFile drives "file:///c:/x.json"
    let second := first.1.indexFile drives "file:///c:/x.json"
    first.2.toOption = some 1 ∧ (first.1.index.ofFile (key "file:///c:/x.json")).length = 0 ∧
      second.2.toOption = some 0 := by
  decide +kernel

end Catalog

end ApiWorkflow
