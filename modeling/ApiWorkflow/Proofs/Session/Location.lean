import ApiWorkflow.Proofs.Session.Saving
import ApiWorkflow.Proofs.Text.Lenient

/-! # Where operations are found

A uri that is written for a path is the root of the local host with unreserved characters,
slashes and escaped bytes behind it, whatever characters the path has. Such a text is a URI
reference. All operations that are read are of files with such uris, so an editor can be
told of every one of them.
-/

namespace ApiWorkflow

open Text

/-! ## The uris that are written -/

namespace FileUri

def capitalDigits : List Char := "0123456789ABCDEF".toList

/-- A text of unreserved characters, slashes and escaped bytes. -/
inductive Spelled : List Char → Prop where
  | nil : Spelled []
  | plain {c : Char} {cs : List Char} (allowed : UriReference.isUnreserved c = true ∨ c = '/')
      (rest : Spelled cs) : Spelled (c :: cs)
  | byte {high low : Char} {cs : List Char} (isHigh : high ∈ capitalDigits)
      (isLow : low ∈ capitalDigits) (rest : Spelled cs) : Spelled ('%' :: high :: low :: cs)

theorem hexDigit_mem {n : Nat} (small : n < 16) : hexDigit n ∈ capitalDigits := by
  have all : ∀ n < 16, hexDigit n ∈ capitalDigits := by decide
  exact all n small

theorem allowed_of_isPlainByte {b : UInt8} (plain : isPlainByte b = true) :
    UriReference.isUnreserved (Char.ofNat b.toNat) = true ∨ Char.ofNat b.toNat = '/' := by
  have all : ∀ n < 256, isPlainByte (UInt8.ofNat n) = true →
      UriReference.isUnreserved (Char.ofNat n) = true ∨ Char.ofNat n = '/' := by decide +kernel
  exact all b.toNat b.toNat_lt (by rwa [UInt8.ofNat_toNat])

theorem spelled_escapeByte (b : UInt8) {cs : List Char} (rest : Spelled cs) :
    Spelled (escapeByte b ++ cs) := by
  have small := b.toNat_lt
  unfold escapeByte
  split
  · rename_i plain
    exact .plain (allowed_of_isPlainByte plain) rest
  · exact .byte (hexDigit_mem (by omega)) (hexDigit_mem (by omega)) rest

theorem spelled_escape (cs : List Char) : Spelled (escape cs) := by
  rw [escape]
  induction Utf8.encode cs with
  | nil => exact .nil
  | cons b bytes ih =>
    rw [List.flatMap_cons]
    exact spelled_escapeByte b ih

/-- Every uri that is written is that of an escaped text from the root. -/
theorem eq_escape_of_ofPath {path uri : List Char} (writes : ofPath path = .ok uri) :
    ∃ rest, uri = scheme ++ '/' :: escape rest := by
  unfold ofPath at writes
  split at writes
  · rename_i absolute
    cases writes
    cases drive : hasDrive path with
    | true => exact ⟨settle path, by rw [ofAbsolute_drive drive, escape_slash]⟩
    | false =>
      cases path with
      | nil => cases absolute
      | cons c rest =>
        have slash : c = '/' := by simpa [isAbsolute, drive, Path.isAbsolute] using absolute
        subst slash
        exact ⟨rest, by rw [ofAbsolute_of_not_hasDrive drive, escape_slash]⟩
  · cases writes

theorem Spelled.mem_cases {cs : List Char} (spelled : Spelled cs) {c : Char} (member : c ∈ cs) :
    UriReference.isUnreserved c = true ∨ c = '/' ∨ c = '%' := by
  have digits : ∀ c ∈ capitalDigits, UriReference.isUnreserved c = true :=
    List.all_eq_true.mp (by decide)
  induction spelled with
  | nil => cases member
  | plain allowed rest ih =>
    rcases List.mem_cons.mp member with rfl | later
    · exact allowed.imp_right .inl
    · exact ih later
  | byte isHigh isLow rest ih =>
    simp only [List.mem_cons] at member
    rcases member with rfl | rfl | rfl | later
    · exact .inr (.inr rfl)
    · exact .inl (digits _ isHigh)
    · exact .inl (digits _ isLow)
    · exact ih later

end FileUri

/-! ## References -/

namespace UriReference

open FileUri (Spelled capitalDigits)

theorem isPath_of_spelled {cs : List Char} (spelled : Spelled cs) : isPath cs = true := by
  have digits : ∀ c ∈ capitalDigits, isHex c = true := List.all_eq_true.mp (by decide)
  rw [isPath]
  induction spelled with
  | nil => rfl
  | plain allowed rest ih =>
    rename_i c cs
    have noEscape : c ≠ '%' := by
      rintro rfl
      rcases allowed with unreserved | same
      · cases unreserved
      · cases same
    have isPath : isPathChar c = true := by
      rcases allowed with unreserved | rfl
      · simp [isPathChar, isNameChar, unreserved]
      · rfl
    rw [isEscapedText, isPath, ih, Bool.and_self]
    intro a b rest percent
    exact absurd percent noEscape
  | byte isHigh isLow rest ih =>
    rw [isEscapedText, digits _ isHigh, digits _ isLow, ih, Bool.and_self, Bool.and_self]

theorem splitAtFirst_eq_none {mark : Char} {cs : List Char} (absent : mark ∉ cs) :
    splitAtFirst [mark] cs = none := by
  rw [← Option.not_isSome_iff_eq_none, ← occursIn, occursIn_iff]
  rintro ⟨before, after, rfl⟩
  simp at absent

theorem isReference_of_spelled {rest : List Char} (spelled : Spelled rest) :
    isReference (FileUri.scheme ++ '/' :: rest) = true := by
  have rooted : Spelled ('/' :: rest) := .plain (.inr rfl) spelled
  have absent : ∀ mark ∈ ['#', '?'], mark ∉ FileUri.scheme ++ '/' :: rest := by
    intro mark isMark member
    have noMark : mark ∉ FileUri.scheme ∧
        ¬(isUnreserved mark = true ∨ mark = '/' ∨ mark = '%') := by
      rcases List.mem_pair.mp isMark with rfl | rfl <;> decide
    rcases List.mem_append.mp member with inScheme | behind
    · exact noMark.1 inScheme
    · exact noMark.2 (rooted.mem_cases behind)
  have front : isFront (FileUri.scheme ++ '/' :: rest) = isPath ('/' :: rest) := rfl
  simp only [isReference, isWithQuery, splitAtFirst_eq_none (absent '#' (by decide)),
    splitAtFirst_eq_none (absent '?' (by decide)), front, isPath_of_spelled rooted]

end UriReference

/-! ## The operations that are read -/

/-- The location of an operation is the start of its line in its file, as far as lines of an
    editor go. -/
def Operation.IsLocated (o : Operation) : Prop :=
  let start : Position := ⟨min o.line 0xFFFFFFFF, 0⟩
  o.location = .ok ⟨o.fileUri, ⟨start, start⟩⟩

theorem Operation.isLocated_of_ofPath {o : Operation} {path : List Char}
    (writes : FileUri.ofPath path = .ok o.fileUri.toList) : o.IsLocated := by
  obtain ⟨rest, spells⟩ := FileUri.eq_escape_of_ofPath writes
  have isReference : UriReference.isReference o.fileUri.toList = true := by
    rw [spells]
    exact UriReference.isReference_of_spelled (FileUri.spelled_escape rest)
  rw [IsLocated, location, if_pos isReference]
  rfl

theorem FileUri.ofPath_of_canonical {uri spelled : List Char} (spells : canonical uri = .ok spelled) :
    ∃ path, ofPath path = .ok spelled := by
  cases names : toPath uri with
  | error fault =>
    rw [canonical, names] at spells
    cases spells
  | ok path =>
    rw [canonical, names] at spells
    exact ⟨path, spells⟩

theorem ApiDescription.isLocated_of_extract {files : FileSystem} {uri : List Char} {key : String}
    {extraction : Extraction} (spells : FileUri.canonical uri = .ok key.toList)
    (reads : extract files key = .ok extraction) :
    ∀ operation ∈ extraction.description.operations, operation.IsLocated := by
  intro operation member
  obtain ⟨path, writes⟩ := FileUri.ofPath_of_canonical spells
  rw [← (belongsTo_of_extract reads).operations operation member] at writes
  exact Operation.isLocated_of_ofPath writes

theorem OperationIndex.mem_replace {index : OperationIndex} {uri : String}
    {description : ApiDescription} {entry : String × Operation}
    (member : entry ∈ (index.replace uri description).operations) :
    entry ∈ index.operations ∨ entry.2 ∈ description.operations := by
  have member : entry ∈ ((index.remove uri).addAll description.operations).1.operations := member
  rw [(operations_addAll_perm _ _).mem_iff, List.mem_append] at member
  rcases member with before | new
  · exact .inl (List.mem_filter.mp before).1
  · obtain ⟨operation, isTaken, rfl⟩ := List.mem_map.mp new
    exact .inr (List.mem_of_find?_eq_some (mem_taken_iff.mp isTaken).1)

namespace Catalog

section

variable {now : Moment} {cache next : DescriptionCache} {uri : String} {description : ApiDescription}
  (found : Fetched now cache uri next (.ok description))

include found

theorem Fetched.kept_or_isLocated {spelling : List Char}
    (spells : FileUri.canonical spelling = .ok uri.toList) :
    (∃ entry ∈ cache.entries, entry.2.description = description) ∨
      ∀ operation ∈ description.operations, operation.IsLocated := by
  cases found with
  | served kept => exact .inl ⟨_, Fields.mem_of_get? kept, rfl⟩
  | read reads => exact .inr (ApiDescription.isLocated_of_extract spells reads)
  | unkept reads => exact .inr (ApiDescription.isLocated_of_extract spells reads)

theorem Fetched.mem_entries {entry : String × CacheEntry} (member : entry ∈ next.entries) :
    entry.2.description = description ∨ entry ∈ cache.entries := by
  cases found with
  | served kept =>
    rcases Fields.mem_insert member with rfl | before
    · exact .inl rfl
    · exact .inr before
  | read reads =>
    rcases Fields.mem_insert member with rfl | before
    · exact .inl rfl
    · exact .inr before
  | unkept reads => exact .inr member

end

/-- Whatever a catalog has, an operation that comes into its index with a description was kept
    in the cache or is located. -/
theorem old_or_isLocated (now : Moment) (catalog : Catalog) (uri : String)
    {entry : String × Operation} (member : entry ∈ (catalog.indexFile now uri).1.index.operations) :
    entry ∈ catalog.index.operations ∨
      (∃ kept ∈ catalog.cache.entries, entry.2 ∈ kept.2.description.operations) ∨
      entry.2.IsLocated := by
  have entered := entered_indexFile now catalog uri
  generalize catalog.indexFile now uri = outcome at entered member
  obtain ⟨next, result⟩ := outcome
  cases entered with
  | refused names => exact .inl member
  | failed spells fails => exact .inl member
  | stored spells found =>
    refine (OperationIndex.mem_replace member).imp_right fun new => ?_
    rcases found.kept_or_isLocated spells with ⟨kept, isKept, rfl⟩ | located
    · exact .inl ⟨kept, isKept, new⟩
    · exact .inr (located _ new)

/-- All operations of the index and of the cache are located. -/
structure Locates (catalog : Catalog) : Prop where
  index : ∀ entry ∈ catalog.index.operations, entry.2.IsLocated
  cache : ∀ entry ∈ catalog.cache.entries, ∀ operation ∈ entry.2.description.operations,
    operation.IsLocated

theorem locates_empty (lifetime : Nat) : Locates (empty lifetime) :=
  ⟨List.forall_mem_nil _, List.forall_mem_nil _⟩

theorem Locates.indexFile {catalog : Catalog} (locates : catalog.Locates) (now : Moment)
    (uri : String) : (catalog.indexFile now uri).1.Locates where
  index := by
    intro entry member
    rcases old_or_isLocated now catalog uri member with old | ⟨kept, isKept, inKept⟩ | located
    · exact locates.index entry old
    · exact locates.cache kept isKept _ inKept
    · exact located
  cache := by
    have entered := entered_indexFile now catalog uri
    generalize catalog.indexFile now uri = outcome at entered
    obtain ⟨next, result⟩ := outcome
    cases entered with
    | refused names => exact locates.cache
    | failed spells fails => exact locates.cache
    | stored spells found =>
      intro entry member
      rcases found.mem_entries member with new | old
      · rw [new]
        rcases found.kept_or_isLocated spells with ⟨kept, isKept, rfl⟩ | located
        · exact locates.cache kept isKept
        · exact located
      · exact locates.cache entry old

theorem Locates.move {catalog : Catalog} (locates : catalog.Locates) (m : Move) :
    (catalog.move m).Locates := by
  cases m with
  | read now uri => exact locates.indexFile now uri
  | forget uri =>
    exact ⟨fun entry member => locates.index entry (List.mem_filter.mp member).1,
      fun entry member => locates.cache entry (List.mem_filter.mp member).1⟩

end Catalog

/-! ## Sessions -/

namespace Session

theorem Reached.locates {settings : Settings} {s : Session} (reached : Reached settings s) :
    s.catalog.Locates :=
  reached.catalog_induction (Catalog.locates_empty _) fun _ m locates => locates.move m

theorem find?_of_definition? {s : Session} {uri : String} {line character : Nat}
    {operation : Operation} (found : s.definition? uri line character = some operation) :
    ∃ id, s.catalog.index.find? id = some operation := by
  unfold definition? at found
  obtain ⟨text, -, found⟩ := Option.bind_eq_some_iff.mp found
  obtain ⟨current, -, found⟩ := Option.bind_eq_some_iff.mp found
  split at found
  · cases found
  · obtain ⟨id, -, found⟩ := Option.bind_eq_some_iff.mp found
    exact ⟨_, found⟩

/-- Uris that are written for paths are spelled in a narrow way, all operations that are read have
    such uris, for whatever text in place of a uri they are read, and in every session the place of
    every operation can be told. -/
theorem written_uris_are_locations :
    (∀ path uri, FileUri.ofPath path = .ok uri →
      ∃ rest, uri = "file:///".toList ++ rest ∧ FileUri.Spelled rest) ∧
    (∀ (now : Moment) (catalog : Catalog) (uri : String),
      ∀ entry ∈ (catalog.indexFile now uri).1.index.operations,
        entry ∈ catalog.index.operations ∨
          (∃ kept ∈ catalog.cache.entries, entry.2 ∈ kept.2.description.operations) ∨
          entry.2.IsLocated) ∧
    ∀ (settings : Settings) (s : Session), Reached settings s →
      (∀ entry ∈ s.catalog.index.operations, entry.2.IsLocated) ∧
      ∀ uri line character, ∃ place, s.definitionLocation uri line character = .ok place ∧
        place.map (·.uri) = (s.definition? uri line character).map (·.fileUri) := by
  refine ⟨?_, ?_, ?_⟩
  · intro path uri writes
    obtain ⟨rest, rfl⟩ := FileUri.eq_escape_of_ofPath writes
    exact ⟨FileUri.escape rest, rfl, FileUri.spelled_escape rest⟩
  · intro now catalog uri entry member
    exact Catalog.old_or_isLocated now catalog uri member
  · intro settings s reached
    refine ⟨reached.locates.index, ?_⟩
    intro uri line character
    cases found : s.definition? uri line character with
    | none => exact ⟨none, by rw [definitionLocation, found], rfl⟩
    | some operation =>
      obtain ⟨id, isThere⟩ := find?_of_definition? found
      have located := reached.locates.index _ (Fields.mem_of_get? isThere)
      refine ⟨_, by rw [definitionLocation, found]; exact congrArg (some <$> ·) located, rfl⟩

/-- A file whose name has brackets, a blank, a letter of two bytes and what looks like an escape. -/
theorem written_uris_are_locations_of_odd_name :
    let path := "/[é] %41.json"
    let uri := "file:///%5B%C3%A9%5D%20%2541.json"
    let world : Moment :=
      ⟨⟨.dir 1 [("[é] %41.json".toList, .file (Catalog.declaring "x") 1)], []⟩, 0⟩
    let known := (new {}).withCatalog ((new {}).catalog.handle {} world (.index path)).1
    let s := (known.changeText "file:///flow.yaml" "operationId: x").1
    Reached {} s ∧ s.catalog.index.all.map (·.fileUri) = [uri] ∧
      (∃ rest, uri.toList = "file:///".toList ++ rest ∧ FileUri.Spelled rest) ∧
      (∀ entry ∈ s.catalog.index.operations, entry.2.IsLocated) ∧
      ∃ place, s.definitionLocation "file:///flow.yaml" 0 0 = .ok place ∧
        place.map (·.uri) = some uri := by
  intro path uri world known s
  obtain ⟨spelled, -, locations⟩ := written_uris_are_locations
  have reached : Reached {} s :=
    .changed "file:///flow.yaml" "operationId: x" (.asked world (.index path) .start)
  have defined : (s.definition? "file:///flow.yaml" 0 0).map (·.fileUri) = some uri := by
    decide +kernel
  obtain ⟨located, places⟩ := locations {} s reached
  refine ⟨reached, by decide +kernel, spelled path.toList uri.toList (by decide +kernel), located, ?_⟩
  rw [← defined]
  exact places "file:///flow.yaml" 0 0

end Session

end ApiWorkflow
