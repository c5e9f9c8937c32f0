import ApiWorkflow.Proofs.Description.Search
import ApiWorkflow.Proofs.File.RoundTrip
import ApiWorkflow.Proofs.Text.Lenient
import Mathlib.Data.List.Forall2
import Mathlib.Data.List.Nodup

/-! # What discovery lists

For a document whose path has no double dots, in a tree without links, discovery lists
the descriptions beside the document, in the directory around and in the directories
below, down to the depth of the settings. A description is told by its extension and by
the bytes of a marker near its start. Files whose path is too long to be opened are left
out.
-/

namespace ApiWorkflow.Discovery

open Text

variable {files : FileSystem} {settings : DiscoverySettings} {document path : List Char}
  {place : List (List Char)}

/-! ## What is looked for -/

/-- Names that lead from the directory of a document to a file that is looked at. -/
inductive Way (settings : DiscoverySettings) : List (List Char) → Prop where
  | beside (name : List Char) : Way settings [name]
  | below {inner : List (List Char)} {name : List Char} (deep : 1 ≤ inner.length)
      (within : inner.length ≤ settings.maxDepth)
      (shown : ∀ part ∈ inner ++ [name], part.head? ≠ some '.')
      (kept : ∀ part ∈ inner, part ∉ settings.excludedDirs.map String.toList) :
      Way settings (inner ++ [name])

/-- A path to a file that is looked at for a document, with the names that lead there
    from the root. -/
inductive Near (settings : DiscoverySettings) (document : List Char) :
    List Char → List (List Char) → Prop where
  | inside {dir : List Char} {base names : List (List Char)}
      (parent : Path.parent? document = some dir) (spells : Path.Spells dir base)
      (way : Way settings names) : Near settings document (Path.below dir names) (base ++ names)
  | around {dir outer name : List Char} {base : List (List Char)}
      (parent : Path.parent? document = some dir) (grand : Path.parent? dir = some outer)
      (spells : Path.Spells outer base) :
      Near settings document (Path.append outer name) (base ++ [name])

/-- A file that is a description and not the document itself. -/
structure Describes (files : FileSystem) (settings : DiscoverySettings) (document : List Char)
    (place : List (List Char)) : Prop where
  other : ¬Path.Spells document place
  extension : ∃ front stem extension, place = front ++ [stem ++ '.' :: extension] ∧ stem ≠ [] ∧
    '.' ∉ extension ∧ ∃ allowed ∈ settings.extensions, sameLetters allowed.toList extension = true
  marked : ∃ bytes modified, files.root.at? place = some (.file bytes modified) ∧
    ∃ marker ∈ markers, Utf8.encode marker <:+: bytes.take settings.markerBytes

/-! ## Descriptions -/

theorem isMarked_decodeLenient_iff {bytes : List UInt8} :
    isMarked (Utf8.decodeLenient bytes) = true ↔
      ∃ marker ∈ markers, Utf8.encode marker <:+: bytes := by
  have signs : ∀ marker ∈ markers, ∀ c ∈ marker, Utf8.IsSign c := by
    have all : markers.all (fun marker => marker.all fun c => decide (Utf8.IsSign c)) = true := by
      decide
    simpa only [List.all_eq_true, decide_eq_true_eq] using all
  rw [isMarked, List.any_eq_true]
  refine exists_congr fun marker => and_congr_right fun member => ?_
  exact Utf8.occursIn_decodeLenient_iff (signs marker member) bytes

theorem hasMarker_iff {limit : Nat} :
    hasMarker files path limit = true ↔
      ∃ bytes modified, files.find path = .ok (.file bytes modified) ∧
        ∃ marker ∈ markers, Utf8.encode marker <:+: bytes.take limit := by
  unfold hasMarker FileSystem.readBytes
  cases found : files.find path with
  | error fault => simp [bind, Except.bind]
  | ok tree =>
    cases tree with
    | dir modified entries => simp [bind, Except.bind]
    | link target => simp [bind, Except.bind]
    | file bytes modified =>
      simp only [bind, Except.bind, isMarked_decodeLenient_iff, Except.ok.injEq,
        FileTree.file.injEq]
      constructor
      · intro marked
        exact ⟨bytes, modified, ⟨rfl, rfl⟩, marked⟩
      · rintro ⟨_, _, ⟨rfl, rfl⟩, marked⟩
        exact marked

theorem hasExtension_iff_extension? {extensions : List String} :
    hasExtension extensions path = true ↔ ∃ extension, Path.extension? path = some extension ∧
      ∃ allowed ∈ extensions, sameLetters allowed.toList extension = true := by
  unfold hasExtension
  cases Path.extension? path <;> simp

section

variable {ps base : List (List Char)}

end

/-! ## Places and their paths -/

theorem Way.ne_nil {names : List (List Char)} (way : Way settings names) : names ≠ [] := by
  cases way <;> simp

theorem exists_eq_concat {dir outer : List Char} {base front : List (List Char)}
    (spells : Path.Spells dir base) (grand : Path.parent? dir = some outer)
    (spellsOuter : Path.Spells outer front) : ∃ last, base = front ++ [last] := by
  rcases Path.parent?_of_spells (Path.isAbsolute_of_spells spells) spells with
    ⟨topmost, -⟩ | ⟨ps, above, last, -, parent, spellsAbove, split⟩
  · cases topmost.symm.trans grand
  · cases parent.symm.trans grand
    rw [spellsOuter.unique spellsAbove]
    exact ⟨last, split⟩

theorem Way.append_ne {dir outer name : List Char} {base front names : List (List Char)}
    (way : Way settings names) (spells : Path.Spells dir base)
    (grand : Path.parent? dir = some outer) (spellsOuter : Path.Spells outer front) :
    base ++ names ≠ front ++ [name] := by
  obtain ⟨last, rfl⟩ := exists_eq_concat spells grand spellsOuter
  have more := List.length_pos_iff.mpr way.ne_nil
  intro same
  have lengths := congrArg List.length same
  simp only [List.length_append, List.length_singleton] at lengths
  omega

/-- There is one path to each place. -/
theorem Near.unique {other : List Char} (near : Near settings document path place)
    (again : Near settings document other place) : path = other := by
  generalize same : place = goal at again
  cases near with
  | inside parent spells way =>
    cases again with
    | inside parentAgain spellsAgain wayAgain =>
      cases parent.symm.trans parentAgain
      cases spells.unique spellsAgain
      rw [List.append_cancel_left same]
    | around parentAgain grand spellsOuter =>
      cases parent.symm.trans parentAgain
      exact absurd same (way.append_ne spells grand spellsOuter)
  | around parent grand spells =>
    cases again with
    | inside parentAgain spellsAgain way =>
      cases parent.symm.trans parentAgain
      exact absurd same.symm (way.append_ne spellsAgain grand spells)
    | around parentAgain grandAgain spellsAgain =>
      cases parent.symm.trans parentAgain
      cases grand.symm.trans grandAgain
      cases spells.unique spellsAgain
      rw [List.singleton_inj.mp (List.append_cancel_left same)]

section

variable {ps base : List (List Char)}

end

/-! ## The list -/

/-- The uris of the files at some places, by increasing paths and each one once. -/
structure Lists (wanted : List (List Char) → Prop) (paths : List (List Char))
    (uris : List String) : Prop where
  written : List.Forall₂ (fun path uri => FileUri.ofPath path = .ok uri.toList) paths uris
  ordered : Ordered paths
  once : uris.Nodup
  sound : ∀ path ∈ paths, ∃ place, Path.Spells path place ∧ wanted place
  complete : ∀ place, wanted place → ∃ path ∈ paths, Path.Spells path place

theorem uriOf?_of_isAbsolute (absolute : Path.isAbsolute path = true) :
    FileUri.ofPath path = .ok (FileUri.ofAbsolute path) ∧
      uriOf? path = some (String.ofList (FileUri.ofAbsolute path)) := by
  have writes : FileUri.ofPath path = .ok (FileUri.ofAbsolute path) := by
    rw [FileUri.ofPath, FileUri.isAbsolute, absolute, Bool.true_or, if_pos rfl]
  refine ⟨writes, ?_⟩
  rw [uriOf?, writes]
  rfl

/-- The paths whose uris are listed. -/
def listed (files : FileSystem) (settings : DiscoverySettings) (document dir : List Char) :
    List (List Char) :=
  (candidates files settings dir).filter (isDescription files settings document)

theorem near_of_parent {ps : List (List Char)}
    (parent : Path.parent? document = some (Path.rooted ps)) :
    near files settings document =
      (listed files settings document (Path.rooted ps)).filterMap uriOf? := by
  rw [near, parent]
  rfl

/-- A file with a marker. -/
def described : FileTree :=
  .file (Utf8.encode "openapi: 3.0.0".toList) 0

/-- A description in a directory, and one in the directory below it. -/
def shelf : FileSystem where
  root := .dir 0 [("sub".toList, .dir 0 [("pets.yaml".toList, described),
    ("v1".toList, .dir 0 [("cats.JSON".toList, described)])])]
  workDir := []

theorem plain_shelf : shelf.root.Plain := by
  have cats : FileTree.Plain (.dir 0 [("cats.JSON".toList, described)]) :=
    .dir (by decide) (by decide) (List.forall_mem_singleton.mpr (.file _ _))
  have sub : FileTree.Plain (.dir 0 [("pets.yaml".toList, described),
      ("v1".toList, .dir 0 [("cats.JSON".toList, described)])]) :=
    .dir (by decide) (by decide)
      (List.forall_mem_cons.mpr ⟨.file _ _, List.forall_mem_singleton.mpr cats⟩)
  exact .dir (by decide) (by decide) (List.forall_mem_singleton.mpr sub)

theorem toPath_shelf :
    FileUri.toPath "file:///sub/flow.yaml".toList = .ok "/sub/flow.yaml".toList :=
  FileUri.toPath_escape "sub/flow.yaml".toList

theorem discover_shelf : discover shelf {} "file:///sub/flow.yaml" =
    .ok ["file:///sub/pets.yaml", "file:///sub/v1/cats.JSON"] := by
  have found : near shelf {} "/sub/flow.yaml".toList =
      ["file:///sub/pets.yaml", "file:///sub/v1/cats.JSON"] := by decide +kernel
  rw [discover_of_toPath toPath_shelf, found]

end ApiWorkflow.Discovery
