import ApiWorkflow.Proofs.Description.Discovery
import ApiWorkflow.Proofs.File.Walk

/-! # The files that a search visits

The candidates for a directory are the files that are visited from it, each in one
spelling. A file is visited by names that lead down to it from the directory, or as an
entry of the directory around.
-/

namespace ApiWorkflow.Discovery

variable {files : FileSystem} {settings : DiscoverySettings} {dir path : List Char}

/-! ## Candidates up to spelling -/

theorem mem_insertPath_of_mem {other : List Char} {paths : List (List Char)}
    (member : other ∈ paths) : other ∈ insertPath path paths := by
  fun_induction insertPath path paths with
  | case1 => cases member
  | case2 p ps before => exact List.mem_cons_of_mem _ member
  | case3 p ps same => exact member
  | case4 p ps behind ih =>
    rcases List.mem_cons.mp member with here | later
    · exact here ▸ List.mem_cons_self
    · exact List.mem_cons_of_mem _ (ih later)

theorem exists_mem_insertPath (path : List Char) (paths : List (List Char)) :
    ∃ other ∈ insertPath path paths, Path.components other = Path.components path := by
  fun_induction insertPath path paths with
  | case1 => exact ⟨path, List.mem_cons_self, rfl⟩
  | case2 p ps before => exact ⟨path, List.mem_cons_self, rfl⟩
  | case3 p ps same => exact ⟨p, List.mem_cons_self, (Path.compare_eq_eq_iff.mp same).symm⟩
  | case4 p ps behind ih =>
    obtain ⟨other, member, same⟩ := ih
    exact ⟨other, List.mem_cons_of_mem _ member, same⟩

/-- The files that are visited, in the order of the visits. -/
def visited (files : FileSystem) (settings : DiscoverySettings) (dir : List Char) :
    List (List Char) :=
  filesIn files dir ++ filesFrom files settings dir ++ filesAround files dir

theorem mem_visited_of_mem_candidates (member : path ∈ candidates files settings dir) :
    path ∈ visited files settings dir := by
  have gathered : ∀ (found paths : List (List Char)),
      path ∈ found.foldl (fun paths path => insertPath path paths) paths →
        path ∈ paths ∨ path ∈ found := by
    intro found
    induction found with
    | nil => exact fun paths member => .inl member
    | cons next found ih =>
      intro paths member
      rcases ih _ member with early | late
      · rcases mem_insertPath early with rfl | before
        · exact .inr List.mem_cons_self
        · exact .inl before
      · exact .inr (List.mem_cons_of_mem _ late)
  exact (gathered _ [] member).resolve_left List.not_mem_nil

theorem exists_mem_candidates (member : path ∈ visited files settings dir) :
    ∃ other ∈ candidates files settings dir, Path.components other = Path.components path := by
  have kept : ∀ (found paths : List (List Char)) {other : List Char}, other ∈ paths →
      other ∈ found.foldl (fun paths path => insertPath path paths) paths := by
    intro found
    induction found with
    | nil => exact fun paths other member => member
    | cons next found ih => exact fun paths other member => ih _ (mem_insertPath_of_mem member)
  have gathered : ∀ (found paths : List (List Char)), path ∈ found →
      ∃ other ∈ found.foldl (fun paths path => insertPath path paths) paths,
        Path.components other = Path.components path := by
    intro found
    induction found with
    | nil => exact fun paths member => absurd member List.not_mem_nil
    | cons next found ih =>
      intro paths member
      rcases List.mem_cons.mp member with rfl | later
      · obtain ⟨other, inserted, same⟩ := exists_mem_insertPath path paths
        exact ⟨other, kept found _ inserted, same⟩
      · exact ih _ later
  exact gathered _ [] member

/-! ## Files in a directory and below it -/

theorem isFile_iff {tree : FileTree} :
    isFile tree = true ↔ ∃ bytes modified, tree = .file bytes modified := by
  cases tree <;> simp [isFile]

theorem mem_filesIn_iff :
    path ∈ filesIn files dir ↔
      ∃ modified entries, files.find dir = .ok (.dir modified entries) ∧
        ∃ name bytes time, (name, .file bytes time) ∈ entries ∧ path = Path.append dir name := by
  unfold filesIn FileSystem.entries
  cases found : files.find dir with
  | error fault => simp [bind, Except.bind]
  | ok tree =>
    cases tree with
    | file bytes modified => simp [bind, Except.bind]
    | link target => simp [bind, Except.bind]
    | dir modified entries =>
      simp only [bind, Except.bind, List.mem_map, List.mem_filter, isFile_iff, Except.ok.injEq,
        FileTree.dir.injEq]
      constructor
      · rintro ⟨⟨name, tree⟩, ⟨member, bytes, time, rfl⟩, rfl⟩
        exact ⟨_, _, ⟨rfl, rfl⟩, name, bytes, time, member, rfl⟩
      · rintro ⟨_, _, ⟨rfl, rfl⟩, name, bytes, time, member, rfl⟩
        exact ⟨_, ⟨member, bytes, time, rfl⟩, rfl⟩

/-- Names that a search follows below a directory: those of directories, then the name
    of a file. -/
structure Follows (excluded : List (List Char)) (depth : Nat) (inner : List (List Char))
    (name : List Char) : Prop where
  within : inner.length < depth
  shown : ∀ part ∈ inner ++ [name], isHidden part = false
  kept : ∀ part ∈ inner, part ∉ excluded

theorem Follows.cons {excluded inner : List (List Char)} {depth : Nat} {first name : List Char}
    (shown : isHidden first = false) (kept : first ∉ excluded)
    (follows : Follows excluded depth inner name) :
    Follows excluded (depth + 1) (first :: inner) name where
  within := Nat.succ_lt_succ follows.within
  shown := by simpa [shown] using follows.shown
  kept := by simpa [kept] using follows.kept

theorem mem_filesBelow_iff {excluded : List (List Char)} {depth : Nat} {modified : Int}
    {entries : List (List Char × FileTree)} (plain : (FileTree.dir modified entries).Plain) :
    path ∈ filesBelow excluded depth dir entries ↔
      ∃ inner name bytes time, Follows excluded depth inner name ∧
        (FileTree.dir modified entries).at? (inner ++ [name]) = some (.file bytes time) ∧
        path = Path.below dir (inner ++ [name]) := by
  induction depth generalizing dir modified entries with
  | zero =>
    rw [filesBelow]
    simp only [List.not_mem_nil, false_iff]
    rintro ⟨inner, name, bytes, time, follows, -⟩
    exact absurd follows.within (Nat.not_lt_zero _)
  | succ depth ih =>
    cases plain with
    | dir once names trees =>
    rw [filesBelow, List.mem_flatMap]
    constructor
    · rintro ⟨⟨name, tree⟩, member, inside⟩
      have entry := FileTree.entryOf_of_mem once member
      have plainTree := trees _ member
      cases hidden : isHidden name with
      | true => simp [hidden] at inside
      | false =>
        cases plainTree with
        | file bytes time =>
          have here : path = Path.append dir name := by simpa [hidden] using inside
          refine ⟨[], name, bytes, time, ⟨by simp, by simpa using hidden, by simp⟩, ?_, here⟩
          simp [FileTree.at?, entry]
        | dir once names trees =>
          rename_i time inner
          by_cases left : name ∈ excluded
          · simp [hidden, left] at inside
          · have deeper : path ∈ filesBelow excluded depth (Path.append dir name) inner := by
              simpa [hidden, left] using inside
            obtain ⟨between, last, bytes, time, follows, stands, rfl⟩ :=
              (ih (.dir once names trees)).mp deeper
            refine ⟨name :: between, last, bytes, time, follows.cons hidden left, ?_, rfl⟩
            simpa [FileTree.at?, entry] using stands
    · rintro ⟨inner, name, bytes, time, follows, stands, rfl⟩
      cases inner with
      | nil =>
        obtain ⟨_, _, same, entry⟩ := FileTree.at?_singleton_eq_some_iff.mp stands
        cases same
        have hidden := follows.shown name (by simp)
        refine ⟨_, FileTree.mem_of_entryOf entry, ?_⟩
        simp [hidden, Path.below]
      | cons first inner =>
        have hidden := follows.shown first (by simp)
        have left := follows.kept first (by simp)
        rw [List.cons_append, FileTree.at?] at stands
        cases entry : FileTree.entryOf first entries with
        | none => simp [entry] at stands
        | some tree =>
          rw [entry] at stands
          have member := FileTree.mem_of_entryOf entry
          obtain ⟨time, deeper, rfl⟩ := FileSystem.dir_of_at? stands (by simp)
          have rest : Follows excluded depth inner name :=
            ⟨Nat.lt_of_succ_lt_succ follows.within,
              fun part inPart => follows.shown part (List.mem_cons_of_mem _ inPart),
              fun part inPart => follows.kept part (List.mem_cons_of_mem _ inPart)⟩
          refine ⟨_, member, ?_⟩
          have found : Path.below dir (first :: (inner ++ [name])) ∈
              filesBelow excluded depth (Path.append dir first) deeper :=
            (ih (trees _ member)).mpr ⟨inner, name, bytes, _, rest, stands, rfl⟩
          simpa [hidden, left] using found

theorem mem_filesFrom_iff {start : List Char} :
    path ∈ filesFrom files settings start ↔
      (∃ modified entries, files.find start = .ok (.dir modified entries) ∧
        path ∈ filesBelow (settings.excludedDirs.map String.toList) (searchDepth settings) start
          entries) ∨
      ∃ bytes modified, files.find start = .ok (.file bytes modified) ∧ path = start := by
  unfold filesFrom
  cases found : files.find start with
  | error fault => simp
  | ok tree => cases tree <;> simp

theorem mem_filesAround_iff :
    path ∈ filesAround files dir ↔
      ∃ outer, Path.parent? dir = some outer ∧ path ∈ filesIn files outer := by
  unfold filesAround
  cases Path.parent? dir <;> simp

end ApiWorkflow.Discovery
