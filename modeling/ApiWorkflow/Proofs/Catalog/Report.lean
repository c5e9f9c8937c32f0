import ApiWorkflow.Proofs.Catalog.Effect
import ApiWorkflow.Proofs.Catalog.Rebuild

/-! # What the report of a build counts

A build reads its candidates into an index that may have anything in it. No candidate touches the
records of another one, so the numbers that are added up while the candidates are read can be
counted in the index in the end: the records of the candidates that were read, and those that a
candidate brought in under another uri. There are none of the second kind unless the cache has
the description of a hidden drive.
-/

namespace ApiWorkflow.Catalog

open FileUri (key)

/-- The candidates that are read with success, one after the other. -/
def succeeded (now : Moment) : Catalog → List String → List String
  | _, [] => []
  | catalog, uri :: uris =>
    match catalog.indexFile now uri with
    | (next, .ok _) => uri :: succeeded now next uris
    | (next, .error _) => succeeded now next uris

/-- Each candidate is counted once. -/
theorem counters_indexAll (now : Moment) (catalog : Catalog) (report : IndexReport)
    (uris : List String) :
    (indexAll now catalog report uris).2.discovered = report.discovered ∧
      (indexAll now catalog report uris).2.indexed =
        report.indexed + (succeeded now catalog uris).length ∧
      (indexAll now catalog report uris).2.indexed + (indexAll now catalog report uris).2.failed =
        report.indexed + report.failed + uris.length := by
  induction uris generalizing catalog report with
  | nil => exact ⟨rfl, rfl, rfl⟩
  | cons uri uris ih =>
    rw [indexAll, succeeded]
    rcases catalog.indexFile now uri with ⟨next, result⟩
    cases result with
    | ok added =>
      obtain ⟨discovered, indexed, complete⟩ := ih next
        { report with indexed := report.indexed + 1, operations := report.operations + added }
      dsimp only at indexed complete ⊢
      refine ⟨discovered, ?_, ?_⟩
      · rw [indexed, List.length_cons]
        omega
      · rw [complete, List.length_cons]
        omega
    | error error =>
      obtain ⟨discovered, indexed, complete⟩ := ih next { report with failed := report.failed + 1 }
      dsimp only at indexed complete ⊢
      refine ⟨discovered, indexed, ?_⟩
      rw [complete, List.length_cons]
      omega

/-! ## Candidates do not touch each other -/

/-- Some candidates were read into an index. -/
structure Passed (naming : Naming) (before : OperationIndex) (read : List String)
    (catalog : Catalog) : Prop where
  wellFormed : catalog.index.WellFormed
  named : Named naming catalog.cache
  kept : ∀ id operation, before.find? id = some operation → operation.fileUri ∉ read →
    catalog.index.find? id = some operation
  fresh : ∀ id operation, catalog.index.find? id = some operation →
    (∃ uri ∈ read, naming.Allows uri operation.fileUri) ∨ before.find? id = some operation

theorem passed_nil {naming : Naming} {catalog : Catalog} (wellFormed : catalog.index.WellFormed)
    (named : Named naming catalog.cache) : Passed naming catalog.index [] catalog where
  wellFormed := wellFormed
  named := named
  kept := fun _ _ found _ => found
  fresh := fun _ _ found => .inr found

section

variable {naming : Naming} {before : OperationIndex} {read : List String} {catalog : Catalog}
  {uri : String} {description : ApiDescription}

theorem Passed.replace (passed : Passed naming before read catalog) (settled : key uri = uri)
    (allows : naming.Allows uri description.uri)
    (belongs : description.BelongsTo description.uri) {cache : DescriptionCache}
    (named : Named naming cache) :
    Passed naming before (read ++ [uri])
      { index := catalog.index.replace uri description, cache := cache } where
  wellFormed := passed.wellFormed.replace uri description
  named := named
  kept := by
    intro id operation found untouched
    rw [List.mem_append, List.mem_singleton, not_or] at untouched
    rw [OperationIndex.find?_replace passed.wellFormed settled,
      passed.kept id operation found untouched.1, Option.filter_some,
      if_pos (bne_iff_ne.mpr untouched.2), Option.some_or]
  fresh := by
    intro id operation found
    rw [OperationIndex.find?_replace passed.wellFormed settled, Option.or_eq_some_iff] at found
    rcases found with older | ⟨-, declared⟩
    · rcases passed.fresh id operation (Option.filter_eq_some_iff.mp older).1 with
        ⟨reader, member, isAllowed⟩ | there
      · exact .inl ⟨reader, List.mem_append_left _ member, isAllowed⟩
      · exact .inr there
    · have own := belongs.operations operation (List.mem_of_find?_eq_some declared)
      exact .inl ⟨uri, List.mem_append_right _ (List.mem_singleton_self uri), own ▸ allows⟩

/-- Whether a record is of a candidate that was read, or was not there before. -/
def isCounted (before : OperationIndex) (read : List String) (entry : String × Operation) : Bool :=
  entry.2.fileUri ∈ read ∨ entry ∉ before.operations

theorem Passed.isCounted_iff (passed : Passed naming before read catalog) (settled : key uri = uri)
    (unread : uri ∉ read) {entry : String × Operation}
    (member : entry ∈ catalog.index.operations) :
    isCounted before (read ++ [uri]) entry = true ∧ (entry.2.fileUri != uri) = true ↔
      isCounted before read entry = true := by
  simp only [isCounted, decide_eq_true_eq, bne_iff_ne, List.mem_append, List.mem_singleton]
  by_cases own : entry.2.fileUri = uri
  · have found := Fields.get?_of_mem passed.wellFormed.operations member
    have there : entry ∈ before.operations := by
      rcases passed.fresh entry.1 entry.2 found with ⟨reader, isReader, allows⟩ | there
      · have same : uri = reader := by
          rw [← allows.key_eq, own, settled]
        exact absurd (same ▸ isReader) unread
      · exact Fields.mem_of_get? there
    simp [own, unread, there]
  · simp [own]

theorem Passed.isCounted_of_mem_taken (passed : Passed naming before read catalog)
    (settled : key uri = uri) (belongs : description.BelongsTo description.uri)
    (wellFormed : before.WellFormed) {operation : Operation}
    (member : operation ∈ (catalog.index.remove uri).taken description.operations) :
    isCounted before (read ++ [uri]) (operation.operationId, operation) = true := by
  obtain ⟨declared, free⟩ := OperationIndex.mem_taken_iff.mp member
  have theirs := belongs.operations operation (List.mem_of_find?_eq_some declared)
  rw [isCounted, decide_eq_true_eq]
  by_cases own : description.uri ∈ read ++ [uri]
  · exact .inl (theirs ▸ own)
  · refine .inr ?_
    intro there
    rw [List.mem_append, List.mem_singleton, not_or] at own
    have found := Fields.get?_of_mem wellFormed.operations there
    have kept := passed.kept _ _ found (theirs ▸ own.1)
    rw [OperationIndex.find?_remove passed.wellFormed settled, kept, Option.filter_some,
      if_pos (bne_iff_ne.mpr (theirs ▸ own.2))] at free
    cases free

theorem Passed.countP_replace (passed : Passed naming before read catalog)
    (settled : key uri = uri) (allows : naming.Allows uri description.uri)
    (belongs : description.BelongsTo description.uri) (wellFormed : before.WellFormed)
    (unread : uri ∉ read) :
    (catalog.index.replace uri description).operations.countP (isCounted before (read ++ [uri])) =
      catalog.index.operations.countP (isCounted before read) +
        ((catalog.index.remove uri).addAll description.operations).2 := by
  have receives := OperationIndex.receives_replace passed.wellFormed settled allows.key_eq
  have older : (catalog.index.operations.filter fun entry => entry.2.fileUri != uri).countP
      (isCounted before (read ++ [uri])) =
        catalog.index.operations.countP (isCounted before read) := by
    rw [List.countP_filter]
    apply List.countP_congr
    intro entry member
    rw [Bool.and_eq_true]
    exact passed.isCounted_iff settled unread member
  have newer : (OperationIndex.entriesOf ((catalog.index.remove uri).taken
      description.operations)).countP (isCounted before (read ++ [uri])) =
        ((catalog.index.remove uri).addAll description.operations).2 := by
    rw [← OperationIndex.length_taken, OperationIndex.entriesOf, List.countP_map,
      List.countP_eq_length]
    intro operation member
    exact passed.isCounted_of_mem_taken settled belongs wellFormed member
  rw [receives.operations.countP_eq, List.countP_append, older, newer]

end

/-! ## Passing through the candidates -/

section

variable {naming : Naming} {before : OperationIndex} {read more : List String}
  {catalog : Catalog}

/-- A candidate that cannot be read changes nothing; one that can is counted. -/
theorem Passed.entered {now : Moment} {next : Catalog} {uri : String} {result : Except Error Nat}
    (passed : Passed naming before read catalog) (wellFormed : before.WellFormed)
    (spelled : IsSpelled uri) (entered : Entered now catalog uri next result) :
    (∃ error, result = .error error ∧ next = catalog) ∨
      ∃ added, result = .ok added ∧ Passed naming before (read ++ [key uri]) next ∧
        (key uri ∉ read → next.index.operations.countP (isCounted before (read ++ [key uri])) =
          catalog.index.operations.countP (isCounted before read) + added) := by
  cases entered with
  | refused names => exact .inl ⟨_, rfl, rfl⟩
  | failed spells fails => exact .inl ⟨_, rfl, rfl⟩
  | stored spells found =>
    obtain ⟨named, allowed⟩ :=
      passed.named.fetched (naming.allows_of_settled spelled.settled) found
    obtain ⟨allows, belongs⟩ := allowed _ rfl
    rw [spelled.settled] at allows
    exact .inr ⟨_, rfl, passed.replace spelled.settled allows belongs named,
      passed.countP_replace spelled.settled allows belongs wellFormed⟩

theorem Passed.indexAll (passed : Passed naming before read catalog) (wellFormed : before.WellFormed)
    (now : Moment) (report : IndexReport) (spelled : ∀ uri ∈ more, IsSpelled uri) :
    Passed naming before (read ++ (succeeded now catalog more).map key)
        (Catalog.indexAll now catalog report more).1 ∧
      ((read ++ more.map key).Nodup →
        (Catalog.indexAll now catalog report more).2.operations +
            catalog.index.operations.countP (isCounted before read) =
          report.operations + (Catalog.indexAll now catalog report more).1.index.operations.countP
            (isCounted before (read ++ (succeeded now catalog more).map key))) := by
  induction more generalizing catalog read report with
  | nil =>
    rw [succeeded, List.map_nil, List.append_nil]
    exact ⟨passed, fun _ => rfl⟩
  | cons uri more ih =>
    obtain ⟨isSpelled, others⟩ := List.forall_mem_cons.mp spelled
    have entered := entered_indexFile now catalog uri
    rw [Catalog.indexAll, succeeded]
    generalize catalog.indexFile now uri = outcome at entered
    obtain ⟨next, result⟩ := outcome
    rcases passed.entered wellFormed isSpelled entered with
      ⟨error, failure, same⟩ | ⟨added, success, passedNext, counts⟩
    · dsimp only at failure same
      subst failure same
      obtain ⟨passedLast, counted⟩ := ih passed { report with failed := report.failed + 1 } others
      refine ⟨passedLast, fun distinct => counted (distinct.sublist ?_)⟩
      exact (List.sublist_cons_self _ _).append_left read
    · dsimp only at success
      subst success
      obtain ⟨passedLast, counted⟩ := ih passedNext
        { report with indexed := report.indexed + 1, operations := report.operations + added } others
      dsimp only
      rw [List.map_cons, List.append_cons]
      refine ⟨passedLast, fun distinct => ?_⟩
      rw [List.map_cons] at distinct
      have unread : key uri ∉ read := fun member =>
        (List.nodup_append.mp distinct).2.2 _ member _ List.mem_cons_self rfl
      rw [List.append_cons] at distinct
      have sum := counted distinct
      rw [counts unread] at sum
      dsimp only at sum
      omega

end

/-! ## Builds -/

/-- Whether a record has one of some uris. -/
def isOf (uris : List String) (entry : String × Operation) : Bool :=
  entry.2.fileUri ∈ uris

/-- Whether a record is new under a uri that was not read. -/
def isStray (before : OperationIndex) (read : List String) (entry : String × Operation) : Bool :=
  entry.2.fileUri ∉ read ∧ entry ∉ before.operations

theorem countP_isCounted (before : OperationIndex) (read : List String)
    (entries : Fields Operation) :
    entries.countP (isCounted before read) =
      entries.countP (isOf read) + entries.countP (isStray before read) := by
  rw [List.countP_eq_countP_filter_add entries (isCounted before read) (isOf read),
    List.countP_filter, List.countP_filter]
  congr 1
  · apply List.countP_congr
    intro entry _
    simp only [isCounted, isOf, Bool.and_eq_true, decide_eq_true_eq]
    exact ⟨fun both => both.2, fun own => ⟨.inl own, own⟩⟩
  · apply List.countP_congr
    intro entry _
    simp only [isCounted, isOf, isStray, Bool.and_eq_true, decide_eq_true_eq, Bool.not_eq_true',
      decide_eq_false_iff_not]
    exact ⟨fun both => ⟨both.2, both.1.resolve_left both.2⟩, fun both => ⟨.inr both.2, both.1⟩⟩

theorem countP_isCounted_self (before : OperationIndex) :
    before.operations.countP (isCounted before []) = 0 := by
  rw [List.countP_eq_zero]
  intro entry member counted
  rw [isCounted, decide_eq_true_eq] at counted
  rcases counted with own | missing
  · cases own
  · exact missing member

theorem Passed.countP_isStray {before : OperationIndex} {read : List String} {catalog : Catalog}
    (passed : Passed .itself before read catalog) :
    catalog.index.operations.countP (isStray before read) = 0 := by
  rw [List.countP_eq_zero]
  intro entry member stray
  rw [isStray, decide_eq_true_eq] at stray
  have found := Fields.get?_of_mem passed.wellFormed.operations member
  rcases passed.fresh entry.1 entry.2 found with ⟨reader, isReader, allows⟩ | there
  · exact stray.1 (allows.1 ▸ isReader)
  · exact stray.2 (Fields.mem_of_get? there)

/-- What the report of a build from some candidates tells about the index after it. -/
structure Accounts (now : Moment) (catalog : Catalog) (uris : List String) (next : Catalog)
    (report : IndexReport) : Prop where
  discovered : report.discovered = uris.length
  complete : report.indexed + report.failed = uris.length
  indexed : report.indexed = (succeeded now catalog uris).length
  /-- Records of other files, and of candidates that could not be read, are still there. -/
  kept : ∀ entry ∈ catalog.index.operations,
    entry.2.fileUri ∉ (succeeded now catalog uris).map key → entry ∈ next.index.operations
  /-- Where no candidate is read twice, each record that is added is there in the end. -/
  operations : (uris.map key).Nodup → report.operations =
    next.index.operations.countP (isOf ((succeeded now catalog uris).map key)) +
      next.index.operations.countP (isStray catalog.index ((succeeded now catalog uris).map key))

theorem accounts_indexAll {naming : Naming} {catalog : Catalog} {uris : List String}
    (wellFormed : catalog.index.WellFormed) (named : Named naming catalog.cache) (now : Moment)
    (spelled : ∀ uri ∈ uris, IsSpelled uri) :
    Accounts now catalog uris (indexAll now catalog { discovered := uris.length } uris).1
      (indexAll now catalog { discovered := uris.length } uris).2 := by
  obtain ⟨discovered, indexed, complete⟩ :=
    counters_indexAll now catalog { discovered := uris.length } uris
  obtain ⟨passed, counted⟩ := (passed_nil wellFormed named).indexAll wellFormed now
    { discovered := uris.length } spelled
  rw [List.nil_append, List.nil_append, countP_isCounted_self, countP_isCounted] at counted
  rw [List.nil_append] at passed
  dsimp only at indexed complete counted
  refine ⟨discovered, ?_, ?_, ?_, ?_⟩
  · rw [complete, Nat.zero_add]
  · rw [indexed, Nat.zero_add]
  · intro entry member untouched
    have found := Fields.get?_of_mem wellFormed.operations member
    exact Fields.mem_of_get? (passed.kept entry.1 entry.2 found untouched)
  · intro distinct
    rw [← Nat.add_zero (Catalog.indexAll _ _ _ _).2.operations, counted distinct, Nat.zero_add]

theorem build_of_not_toPath {uri : String} {fault : FileUri.Fault}
    (names : FileUri.toPath uri.toList = .error fault) (now : Moment)
    (settings : DiscoverySettings) (catalog : Catalog) :
    ∃ error, catalog.build now settings uri = (catalog, .error error) := by
  rw [build, Discovery.discover, names]
  exact ⟨_, rfl⟩

/-- What comes of a build into any index, whatever runs have filled the cache. It fails only if its
    uri names no path, and changes nothing then. Otherwise the report counts the candidates, and
    the records that were added; these are the records of the candidates that could be read if no
    uri of the runs hides a drive. -/
theorem accounts_build (settings : DiscoverySettings) (lifetime : Nat)
    (run : List (Moment × Request)) (index : OperationIndex) (wellFormed : index.WellFormed)
    (now : Moment) (uri : String) :
    let catalog : Catalog := ⟨index, (after settings (empty lifetime) run).cache⟩
    ((∃ next error, catalog.build now settings uri = (next, .error error)) ↔
        ∃ fault, FileUri.toPath uri.toList = .error fault) ∧
      (∀ next error, catalog.build now settings uri = (next, .error error) → next = catalog) ∧
      ∀ next report, catalog.build now settings uri = (next, .ok report) →
        ∃ uris, Discovery.discover now.files settings uri = .ok uris ∧
          Accounts now catalog uris next report ∧
          ((∀ event ∈ run, ¬FileUri.HidesDrive event.2.uri.toList) → (uris.map key).Nodup →
            report.operations =
              next.index.operations.countP (isOf ((succeeded now catalog uris).map key))) := by
  intro catalog
  cases names : FileUri.toPath uri.toList with
  | error fault =>
    obtain ⟨error, builds⟩ := build_of_not_toPath names now settings catalog
    rw [builds]
    refine ⟨⟨fun _ => ⟨fault, rfl⟩, fun _ => ⟨catalog, error, rfl⟩⟩, ?_, ?_⟩
    · rintro next other ⟨⟩
      rfl
    · rintro next report ⟨⟩
  | ok path =>
    have finds : Discovery.discover now.files settings uri =
        .ok (Discovery.near now.files settings path) := Discovery.discover_of_toPath names
    generalize Discovery.near now.files settings path = uris at finds
    have spelled := isSpelled_of_discover finds
    rw [build_of_discover finds catalog]
    refine ⟨⟨?_, ?_⟩, ?_, ?_⟩
    · rintro ⟨next, error, ⟨⟩⟩
    · rintro ⟨fault, ⟨⟩⟩
    · rintro next error ⟨⟩
    · rintro next report ⟨⟩
      have named : Named .sameKey catalog.cache := named_after settings lifetime run
      have accounts : Accounts now catalog uris _ _ :=
        accounts_indexAll wellFormed named now spelled
      refine ⟨uris, finds, accounts, fun visible distinct => ?_⟩
      have strict : Named .itself catalog.cache := named_of_visible settings lifetime visible
      have passed := ((passed_nil wellFormed strict).indexAll wellFormed now
        { discovered := uris.length } spelled).1
      rw [List.nil_append] at passed
      rw [accounts.operations distinct, passed.countP_isStray, Nat.add_zero]

/-- One candidate of three cannot be read, one is in the cache, and of the two records that are
    there one is of a candidate and one is not. -/
theorem accounts_build_oneBroken :
    let run := [(⟨oneBroken, 0⟩, Request.index "file:///a.json")]
    let index := (after {} (empty 300) [(drives, Request.index "file:///c:/x.json"),
      (twins 1 "z", Request.index "file:///b.json")]).index
    let catalog : Catalog := ⟨index, (after {} (empty 300) run).cache⟩
    let uris := ["file:///a.json", "file:///b.json", "file:///c.json"]
    index.size = 2 ∧ ∃ next,
      catalog.build ⟨oneBroken, 7⟩ {} "file:///flow.yaml" = (next, .ok ⟨3, 2, 1, 1⟩) ∧
      next.cache.totalHits = 1 ∧ next.index.size = 2 ∧
      Accounts ⟨oneBroken, 7⟩ catalog uris next ⟨3, 2, 1, 1⟩ ∧
      next.index.operations.countP
        (isOf ((succeeded ⟨oneBroken, 7⟩ catalog uris).map key)) = 1 := by
  intro run index catalog uris
  have wellFormed : index.WellFormed := (coherent_after {} 300 (by decide +kernel)).wellFormed
  have visible : ∀ event ∈ run, ¬FileUri.HidesDrive event.2.uri.toList := by
    intro event member
    rw [List.mem_singleton.mp member]
    exact FileUri.not_hidesDrive_of_isNamed rfl (.inr ⟨"a.json".toList, rfl, rfl⟩)
  have candidates : (Discovery.discover oneBroken {} "file:///flow.yaml").toOption = some uris := by
    decide +kernel
  have counts : (catalog.build ⟨oneBroken, 7⟩ {} "file:///flow.yaml").2.toOption =
        some ⟨3, 2, 1, 1⟩ ∧
      (catalog.build ⟨oneBroken, 7⟩ {} "file:///flow.yaml").1.cache.totalHits = 1 ∧
      (catalog.build ⟨oneBroken, 7⟩ {} "file:///flow.yaml").1.index.size = 2 := by decide +kernel
  obtain ⟨-, -, succeeds⟩ :=
    accounts_build {} 300 run index wellFormed ⟨oneBroken, 7⟩ "file:///flow.yaml"
  rcases builds : catalog.build ⟨oneBroken, 7⟩ {} "file:///flow.yaml" with ⟨next, result⟩
  rw [builds] at counts
  obtain ⟨isReport, hits, size⟩ := counts
  cases result with
  | error error => cases isReport
  | ok report =>
    cases isReport
    obtain ⟨found, finds, accounts, counted⟩ := succeeds next _ builds
    cases (congrArg Except.toOption finds).symm.trans candidates
    exact ⟨by decide +kernel, next, rfl, hits, size, accounts,
      (counted visible (by decide +kernel)).symm⟩

/-- A record of one drive is counted for the other, which has none. -/
theorem build_miscounts_on_hidden_drive :
    let built := (after {} (empty 300) misfiling).build drives {} "file:///c:/flow.yaml"
    (Discovery.discover drives.files {} "file:///c:/flow.yaml").toOption =
        some ["file:///c%3A/x.json"] ∧
      built.2.toOption = some ⟨1, 1, 0, 1⟩ ∧
      built.1.index.operations.countP (isOf [key "file:///c%3A/x.json"]) = 0 := by
  decide +kernel

end ApiWorkflow.Catalog
