import ApiWorkflow.Proofs.Catalog.Ownership

/-! # The cache cannot be told from reading

A catalog whose cache serves descriptions answers as one whose cache never does, as
long as a file that has the same time of change twice has the same text both times.
The catalog with a silent cache is the same program with another way to ask: `get` is
a parameter of every function down to `obtainBy`, and the catalog of the library is
the one that asks with `DescriptionCache.get`.
-/

namespace ApiWorkflow.Catalog

/-- A way to ask a cache for a description. -/
abbrev Ask := DescriptionCache → Moment → String → DescriptionCache × Option ApiDescription

/-- Asking a cache that never serves. -/
def silent : Ask := fun cache _ _ => (cache, none)

/-! ## Catalogs that ask in some way -/

section

variable (ask : Ask)

def obtainBy (now : Moment) (cache : DescriptionCache) (uri : String) :
    DescriptionCache × Except Error ApiDescription :=
  match ask cache now uri with
  | (cache, some description) => (cache, .ok description)
  | (cache, none) =>
    match ApiDescription.extract now.files uri with
    | .error e => (cache, .error e)
    | .ok extraction =>
      match cache.put now uri extraction.description with
      | .ok cache => (cache, .ok extraction.description)
      | .error _ => (cache, .ok extraction.description)

def indexFileBy (now : Moment) (catalog : Catalog) (uri : String) : Catalog × Except Error Nat :=
  match FileUri.canonical uri.toList with
  | .error fault => (catalog, .error (.badUri fault))
  | .ok canonical =>
    let uri := String.ofList canonical
    match obtainBy ask now catalog.cache uri with
    | (cache, .error e) => ({ catalog with cache := cache }, .error e)
    | (cache, .ok description) =>
      let (index, added) := (catalog.index.remove uri).addAll description.operations
      ({ index := index.addDescription description, cache := cache }, .ok added)

def reindexFileBy (now : Moment) (catalog : Catalog) (uri : String) : Catalog × Except Error Nat :=
  indexFileBy ask now (catalog.invalidate uri) uri

def indexAllBy (now : Moment) : Catalog → IndexReport → List String → Catalog × IndexReport
  | catalog, report, [] => (catalog, report)
  | catalog, report, uri :: uris =>
    match indexFileBy ask now catalog uri with
    | (catalog, .ok added) =>
      indexAllBy now catalog
        { report with indexed := report.indexed + 1, operations := report.operations + added } uris
    | (catalog, .error _) =>
      indexAllBy now catalog { report with failed := report.failed + 1 } uris

def buildBy (now : Moment) (settings : DiscoverySettings) (catalog : Catalog) (uri : String) :
    Catalog × Except Error IndexReport :=
  match Discovery.discover now.files settings uri with
  | .error e => (catalog, .error e)
  | .ok uris =>
    let (catalog, report) := indexAllBy ask now catalog { discovered := uris.length } uris
    (catalog, .ok report)

def handleBy (settings : DiscoverySettings) (now : Moment) (catalog : Catalog) :
    Request → Catalog × Reply
  | .build uri => (buildBy ask now settings catalog uri).map id .report
  | .index uri => (indexFileBy ask now catalog uri).map id .added
  | .reindex uri => (reindexFileBy ask now catalog uri).map id .added
  | .invalidate uri => (catalog.invalidate uri, .done)

/-- The index and the reply after each request of a run. -/
def traceBy (settings : DiscoverySettings) :
    Catalog → List (Moment × Request) → List (OperationIndex × Reply)
  | _, [] => []
  | catalog, (now, request) :: run =>
    let next := handleBy ask settings now catalog request
    (next.1.index, next.2) :: traceBy settings next.1 run

end

/-- The index and the reply after each request of a run. -/
def trace (settings : DiscoverySettings) :
    Catalog → List (Moment × Request) → List (OperationIndex × Reply)
  | _, [] => []
  | catalog, (now, request) :: run =>
    let next := catalog.handle settings now request
    (next.1.index, next.2) :: trace settings next.1 run

theorem obtainBy_get (now : Moment) (cache : DescriptionCache) (uri : String) :
    obtainBy DescriptionCache.get now cache uri = obtain now cache uri :=
  rfl

theorem indexFileBy_get (now : Moment) (catalog : Catalog) (uri : String) :
    indexFileBy DescriptionCache.get now catalog uri = catalog.indexFile now uri := by
  cases spells : FileUri.canonical uri.toList with
  | error fault => simp only [indexFileBy, indexFile, spells]
  | ok spelled =>
    have same := obtainBy_get now catalog.cache (String.ofList spelled)
    rcases found : obtain now catalog.cache (String.ofList spelled) with ⟨cache, result⟩
    rw [found] at same
    cases result with
    | error error => simp only [indexFileBy, indexFile, spells, same, found]
    | ok description => simp only [indexFileBy, indexFile, spells, same, found]

theorem indexAllBy_get (now : Moment) (catalog : Catalog) (report : IndexReport)
    (uris : List String) :
    indexAllBy DescriptionCache.get now catalog report uris = indexAll now catalog report uris := by
  induction uris generalizing catalog report with
  | nil => rfl
  | cons uri uris ih =>
    rw [indexAllBy, indexAll, indexFileBy_get]
    rcases catalog.indexFile now uri with ⟨next, result⟩
    cases result with
    | ok added => exact ih next _
    | error error => exact ih next _

theorem handleBy_get (settings : DiscoverySettings) (now : Moment) (catalog : Catalog)
    (request : Request) :
    handleBy DescriptionCache.get settings now catalog request =
      catalog.handle settings now request := by
  cases request with
  | build uri =>
    cases finds : Discovery.discover now.files settings uri with
    | error error => simp only [handleBy, buildBy, handle, build, finds]
    | ok uris => simp only [handleBy, buildBy, indexAllBy_get, handle, build, finds]
  | index uri => rw [handleBy, handle, indexFileBy_get]
  | reindex uri => rw [handleBy, handle, reindexFileBy, reindexFile, indexFileBy_get]
  | invalidate uri => rfl

theorem traceBy_get (settings : DiscoverySettings) (catalog : Catalog)
    (run : List (Moment × Request)) :
    traceBy DescriptionCache.get settings catalog run = trace settings catalog run := by
  induction run generalizing catalog with
  | nil => rfl
  | cons event run ih =>
    rw [traceBy, trace, handleBy_get]
    simp only [ih]

/-! ## What the cache may serve -/

/-- A file that has the same time of change at two of some moments has the same text at
    both. -/
def Consistent (moments : List Moment) : Prop :=
  ∀ a ∈ moments, ∀ b ∈ moments, ∀ path time,
    a.files.modified path = .ok time → b.files.modified path = .ok time →
      a.files.readText path = b.files.readText path

/-- Every entry of a cache was read at one of some moments, at the time of change that it
    has. -/
def Faithful (moments : List Moment) (cache : DescriptionCache) : Prop :=
  ∀ entry ∈ cache.entries, ∃ past ∈ moments, ∃ extraction,
    DescriptionCache.modified past.files entry.1.toList = .ok entry.2.modified ∧
      ApiDescription.extract past.files entry.1 = .ok extraction ∧
      extraction.description = entry.2.description

theorem Consistent.extract_eq {moments : List Moment} (consistent : Consistent moments)
    {a b : Moment} (isA : a ∈ moments) (isB : b ∈ moments) {uri : String} {time : Int}
    (changedA : DescriptionCache.modified a.files uri.toList = .ok time)
    (changedB : DescriptionCache.modified b.files uri.toList = .ok time) :
    ApiDescription.extract a.files uri = ApiDescription.extract b.files uri := by
  obtain ⟨path, names, stampA⟩ := DescriptionCache.modified_eq_ok_iff.mp changedA
  obtain ⟨other, namesB, stampB⟩ := DescriptionCache.modified_eq_ok_iff.mp changedB
  cases names.symm.trans namesB
  simp only [ApiDescription.extract, names, consistent a isA b isB path time stampA stampB]

/-- What a faithful cache serves is what would be read, at the time of change that it has. -/
theorem Faithful.extract_of_served {moments : List Moment} (consistent : Consistent moments)
    {cache : DescriptionCache} (faithful : Faithful moments cache) {now : Moment}
    (isNow : now ∈ moments) {uri : String} {entry : CacheEntry}
    (fresh : cache.served? now uri.toList = some entry) :
    ∃ extraction, DescriptionCache.modified now.files uri.toList = .ok entry.modified ∧
      ApiDescription.extract now.files uri = .ok extraction ∧
      extraction.description = entry.description := by
  obtain ⟨kept, usable⟩ := Option.filter_eq_some_iff.mp fresh
  rw [String.ofList_toList] at kept
  obtain ⟨past, isPast, extraction, changed, reads, same⟩ := faithful _ (Fields.mem_of_get? kept)
  have current : DescriptionCache.isCurrent now.files uri.toList entry = true :=
    ((Bool.and_eq_true _ _).mp usable).2
  have unchanged : DescriptionCache.modified now.files uri.toList = .ok entry.modified := by
    unfold DescriptionCache.isCurrent at current
    split at current
    · rename_i time stamp
      rw [stamp, beq_iff_eq.mp current]
    · cases current
  have alike := consistent.extract_eq isNow isPast unchanged changed
  exact ⟨extraction, unchanged, alike.trans reads, same⟩

theorem Faithful.insert {moments : List Moment} {cache : DescriptionCache}
    (faithful : Faithful moments cache) {past : Moment} (isPast : past ∈ moments) {uri : String}
    {entry : CacheEntry} {extraction : ApiDescription.Extraction}
    (changed : DescriptionCache.modified past.files uri.toList = .ok entry.modified)
    (reads : ApiDescription.extract past.files uri = .ok extraction)
    (same : extraction.description = entry.description) :
    Faithful moments { cache with entries := cache.entries.insert uri entry } := by
  intro other member
  rcases Fields.mem_insert member with rfl | before
  · exact ⟨past, isPast, extraction, changed, reads, same⟩
  · exact faithful other before

theorem Faithful.invalidate {moments : List Moment} {cache : DescriptionCache}
    (faithful : Faithful moments cache) (uri : String) :
    Faithful moments (cache.invalidate uri) :=
  fun entry member => faithful entry (List.mem_filter.mp member).1

/-- Whatever way a description is come by, it is what would be read, and the cache stays
    faithful. -/
theorem Obtained.faithful {moments : List Moment} (consistent : Consistent moments)
    {now : Moment} (isNow : now ∈ moments) {cache next : DescriptionCache} {uri : String}
    {result : Except Error ApiDescription} (faithful : Faithful moments cache)
    (found : Obtained now cache uri next result) :
    result = (ApiDescription.extract now.files uri).map (·.description) ∧
      Faithful moments next := by
  cases found with
  | served fresh =>
    rename_i entry
    obtain ⟨extraction, unchanged, reads, same⟩ :=
      faithful.extract_of_served consistent isNow fresh
    refine ⟨?_, faithful.insert isNow unchanged reads same⟩
    rw [reads, Except.map, same]
  | unread missed fails =>
    refine ⟨?_, faithful⟩
    rw [fails]
    rfl
  | read missed reads changed =>
    refine ⟨?_, faithful.insert isNow changed reads rfl⟩
    rw [reads]
    rfl

/-! ## Both catalogs side by side -/

theorem obtainBy_silent (now : Moment) (cache : DescriptionCache) (uri : String) :
    (obtainBy silent now cache uri).2 =
      (ApiDescription.extract now.files uri).map (·.description) := by
  simp only [obtainBy, silent]
  split
  · rename_i error fails
    rw [fails]
    rfl
  · rename_i extraction reads
    rw [reads]
    split <;> rfl

theorem indexFileBy_of_error {ask : Ask} {now : Moment} {catalog : Catalog} {uri key : String}
    {error : Error} (spells : FileUri.canonical uri.toList = .ok key.toList)
    (fails : (obtainBy ask now catalog.cache key).2 = .error error) :
    (indexFileBy ask now catalog uri).1.index = catalog.index ∧
      (indexFileBy ask now catalog uri).2 = .error error := by
  simp only [indexFileBy, spells, String.ofList_toList]
  generalize obtainBy ask now catalog.cache key = found at fails
  obtain ⟨cache, result⟩ := found
  cases fails
  exact ⟨rfl, rfl⟩

theorem indexFileBy_of_ok {ask : Ask} {now : Moment} {catalog : Catalog} {uri key : String}
    {description : ApiDescription} (spells : FileUri.canonical uri.toList = .ok key.toList)
    (finds : (obtainBy ask now catalog.cache key).2 = .ok description) :
    (indexFileBy ask now catalog uri).1.index = catalog.index.replace key description ∧
      (indexFileBy ask now catalog uri).2 =
        .ok ((catalog.index.remove key).addAll description.operations).2 := by
  simp only [indexFileBy, spells, String.ofList_toList]
  generalize obtainBy ask now catalog.cache key = found at finds
  obtain ⟨cache, result⟩ := found
  cases finds
  exact ⟨rfl, rfl⟩

/-- A catalog with a faithful cache beside one whose cache is of no use. -/
structure Alike (moments : List Moment) (catalog other : Catalog) : Prop where
  index : catalog.index = other.index
  faithful : Faithful moments catalog.cache

section

variable {moments : List Moment} (consistent : Consistent moments) {now : Moment}
  (isNow : now ∈ moments) {catalog other : Catalog}

include consistent isNow

theorem Alike.indexFile (alike : Alike moments catalog other) {uri : String}
    (settles : Settles uri) :
    (catalog.indexFile now uri).2 = (indexFileBy silent now other uri).2 ∧
      Alike moments (catalog.indexFile now uri).1 (indexFileBy silent now other uri).1 := by
  have indexed := indexed_indexFile now catalog settles
  generalize catalog.indexFile now uri = outcome at indexed
  obtain ⟨next, result⟩ := outcome
  cases indexed with
  | refused names =>
    rename_i fault
    have refused : indexFileBy silent now other uri = (other, .error (.badUri fault)) := by
      simp only [indexFileBy, names]
    rw [refused]
    exact ⟨rfl, alike⟩
  | failed spells unread =>
    rename_i key error
    obtain ⟨same, -⟩ := unread.faithful consistent isNow alike.faithful
    have silence := (obtainBy_silent now other.cache key).trans same.symm
    obtain ⟨index, reply⟩ := indexFileBy_of_error spells silence
    exact ⟨reply.symm, alike.index.trans index.symm, alike.faithful⟩
  | stored spells found =>
    rename_i key cache description
    obtain ⟨same, faithful⟩ := found.faithful consistent isNow alike.faithful
    have silence := (obtainBy_silent now other.cache key).trans same.symm
    obtain ⟨index, reply⟩ := indexFileBy_of_ok spells silence
    rw [← alike.index] at index reply
    exact ⟨reply.symm, index.symm, faithful⟩

omit consistent isNow in
theorem Alike.invalidate (alike : Alike moments catalog other) (uri : String) :
    Alike moments (catalog.invalidate uri) (other.invalidate uri) where
  index := by
    simp only [Catalog.invalidate, alike.index]
  faithful := alike.faithful.invalidate _

theorem Alike.indexAll (alike : Alike moments catalog other) (report : IndexReport)
    {uris : List String} (files : ∀ uri ∈ uris, FileUri.HasScheme uri.toList) :
    (indexAll now catalog report uris).2 = (indexAllBy silent now other report uris).2 ∧
      Alike moments (indexAll now catalog report uris).1
        (indexAllBy silent now other report uris).1 := by
  induction uris generalizing catalog other report with
  | nil => exact ⟨rfl, alike⟩
  | cons uri uris ih =>
    have settles := settles_of_hasScheme (files uri List.mem_cons_self)
    have others : ∀ uri ∈ uris, FileUri.HasScheme uri.toList :=
      fun other member => files other (List.mem_cons_of_mem _ member)
    obtain ⟨reply, next⟩ := alike.indexFile consistent isNow settles
    rw [Catalog.indexAll, indexAllBy]
    -- Only the replies decide how both go on, and they are equal.
    generalize catalog.indexFile now uri = left at reply next
    generalize indexFileBy silent now other uri = right at reply next
    obtain ⟨leftNext, leftResult⟩ := left
    obtain ⟨rightNext, rightResult⟩ := right
    cases reply
    cases leftResult with
    | ok added => exact ih next _ others
    | error error => exact ih next _ others

theorem Alike.handle (alike : Alike moments catalog other) (settings : DiscoverySettings)
    {request : Request} (settles : Settles request.uri) :
    (catalog.handle settings now request).2 = (handleBy silent settings now other request).2 ∧
      Alike moments (catalog.handle settings now request).1
        (handleBy silent settings now other request).1 := by
  cases request with
  | build uri =>
    simp only [Catalog.handle, handleBy, build, buildBy]
    cases finds : Discovery.discover now.files settings uri with
    | error error => exact ⟨rfl, alike⟩
    | ok uris =>
      obtain ⟨reply, next⟩ := alike.indexAll consistent isNow { discovered := uris.length }
        (Discovery.hasScheme_of_discover finds)
      simp only [Prod.map, id, reply]
      exact ⟨trivial, next⟩
  | index uri =>
    obtain ⟨reply, next⟩ := alike.indexFile consistent isNow settles
    rw [Catalog.handle, handleBy]
    simp only [Prod.map, id]
    exact ⟨congrArg Reply.added reply, next⟩
  | reindex uri =>
    obtain ⟨reply, next⟩ := (alike.invalidate uri).indexFile consistent isNow settles
    rw [Catalog.handle, handleBy, Catalog.reindexFile, reindexFileBy]
    simp only [Prod.map, id]
    exact ⟨congrArg Reply.added reply, next⟩
  | invalidate uri => exact ⟨rfl, alike.invalidate uri⟩

end

/-- A uri of a file, or a text that is not the uri of any file. -/
def IsPlain (uri : String) : Prop :=
  FileUri.HasScheme uri.toList ∨ (FileUri.toPath uri.toList).isOk = false

instance (uri : String) : Decidable (IsPlain uri) :=
  inferInstanceAs (Decidable (_ ∨ _))

theorem settles_of_isPlain {uri : String} (plain : IsPlain uri) : Settles uri := by
  rcases plain with file | invalid
  · exact settles_of_hasScheme file
  · intro spelled spells
    cases names : FileUri.toPath uri.toList with
    | error fault => simp [FileUri.canonical, names, bind, Except.bind] at spells
    | ok path => simp [names, Except.isOk, Except.toBool] at invalid

theorem Alike.trace {moments : List Moment} (consistent : Consistent moments)
    (settings : DiscoverySettings) {catalog other : Catalog} (alike : Alike moments catalog other)
    {run : List (Moment × Request)} (within : ∀ event ∈ run, event.1 ∈ moments)
    (plain : ∀ event ∈ run, IsPlain event.2.uri) :
    Catalog.trace settings catalog run = traceBy silent settings other run := by
  induction run generalizing catalog other with
  | nil => rfl
  | cons event run ih =>
    have isNow := within event List.mem_cons_self
    have settles := settles_of_isPlain (plain event List.mem_cons_self)
    obtain ⟨reply, next⟩ := alike.handle consistent isNow settings settles
    have rest := ih next (fun other member => within other (List.mem_cons_of_mem _ member))
      (fun other member => plain other (List.mem_cons_of_mem _ member))
    rw [Catalog.trace, traceBy]
    simp only [reply, next.index, rest]

/-- Whatever the lifetime of the cache, each reply and each index of a run is the one
    that the same run leads to with a cache that never serves. -/
theorem trace_eq_traceBy_silent (settings : DiscoverySettings) (lifetime : Nat)
    (run : List (Moment × Request)) (plain : ∀ event ∈ run, IsPlain event.2.uri)
    (consistent : Consistent (run.map Prod.fst)) :
    trace settings (empty lifetime) run =
        traceBy DescriptionCache.get settings (empty lifetime) run ∧
      trace settings (empty lifetime) run = traceBy silent settings (empty lifetime) run := by
  refine ⟨(traceBy_get settings (empty lifetime) run).symm, ?_⟩
  have alike : Alike (run.map Prod.fst) (empty lifetime) (empty lifetime) := by
    refine ⟨rfl, ?_⟩
    intro entry member
    cases member
  exact alike.trace consistent settings
    (fun event member => List.mem_map.mpr ⟨event, member, rfl⟩) plain

theorem at?_twins {changed : Int} {id : String} {names : List (List Char)} {tree : FileTree}
    (stands : (twins changed id).files.root.at? names = some tree) :
    (∃ entries, tree = .dir changed entries) ∨ tree = .file (declaring id) changed := by
  cases names with
  | nil => exact .inl ⟨_, (Option.some.inj stands).symm⟩
  | cons name names =>
    have file : (FileTree.file (declaring id) changed).at? names = some tree := by
      simp only [twins, FileTree.at?, FileTree.entryOf, List.lookup_cons, List.lookup_nil] at stands
      split at stands
      · rename_i inner found
        split at found
        · cases found
          exact stands
        · split at found
          · cases found
            exact stands
          · cases found
      · cases stands
    cases names with
    | nil => exact .inr (Option.some.inj file).symm
    | cons _ _ => cases file

theorem modified_twins {changed time : Int} {id : String} {path : List Char}
    (stamp : (twins changed id).files.modified path = .ok time) : time = changed := by
  cases place : (twins changed id).files.locate path with
  | error fault => simp [FileSystem.modified, FileSystem.find, place, bind, Except.bind] at stamp
  | ok names =>
    cases stands : (twins changed id).files.root.at? names.reverse with
    | none => simp [FileSystem.modified, FileSystem.find, place, stands, bind, Except.bind] at stamp
    | some tree =>
      simp only [FileSystem.modified, FileSystem.find, place, stands, bind, Except.bind] at stamp
      rcases at?_twins stands with ⟨entries, rfl⟩ | rfl
      · exact (Except.ok.inj stamp).symm
      · exact (Except.ok.inj stamp).symm

theorem consistent_twins {a b : Int} (apart : a ≠ b) (left right : String) :
    Consistent [twins a left, twins a left, twins b right] := by
  intro first isFirst second isSecond path time stampFirst stampSecond
  simp only [List.mem_cons, List.not_mem_nil, or_false, or_self_left] at isFirst isSecond
  rcases isFirst with rfl | rfl <;> rcases isSecond with rfl | rfl
  · rfl
  · exact absurd ((modified_twins stampFirst).symm.trans (modified_twins stampSecond)) apart
  · exact absurd ((modified_twins stampSecond).symm.trans (modified_twins stampFirst)) apart
  · rfl

theorem trace_twins_eq_traceBy_silent :
    let run := [(twins 1 "x", Request.index "file:///a.json"),
      (twins 1 "x", .index "file://localhost/a.json"), (twins 2 "y", .build "file:///flow.yaml")]
    (∀ event ∈ run, IsPlain event.2.uri) ∧ Consistent (run.map Prod.fst) ∧
      (after {} (empty 300) (run.take 2)).cache.totalHits = 1 ∧
      trace {} (empty 300) run = traceBy silent {} (empty 300) run := by
  intro run
  have plain : ∀ event ∈ run, IsPlain event.2.uri := by decide +kernel
  have consistent : Consistent (run.map Prod.fst) := consistent_twins (by decide) "x" "y"
  exact ⟨plain, consistent, by decide +kernel,
    (trace_eq_traceBy_silent {} 300 run plain consistent).2⟩

end ApiWorkflow.Catalog
