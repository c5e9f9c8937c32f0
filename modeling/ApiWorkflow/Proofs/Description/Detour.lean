import ApiWorkflow.Proofs.Description.Listing

/-! # Files that discovery lists twice

Candidates are told apart by the components of their paths, so two of them are one file
only where components lead back. The directory around `a/b/..` is taken to be `a/b`,
which is a directory below it: files in `a/b` are visited from above and once more from
there. This is the only way to a file that is listed twice.
-/

namespace ApiWorkflow.Discovery

open Text

variable {files : FileSystem} {settings : DiscoverySettings} {document path : List Char}
  {ps os : List (List Char)}

/-- A uri names a path from the root that leads to a place. -/
def LeadsTo (files : FileSystem) (uri : String) (place : List (List Char)) : Prop :=
  ∃ path, FileUri.toPath uri.toList = .ok path ∧ Path.isAbsolute path = true ∧
    files.locate path = .ok place

/-! ## The spelling of a visit -/

/-- The path of a file that is visited: names behind the directory, or a name behind the
    directory around. -/
inductive Visit (ps : List (List Char)) : List Char → Prop where
  | down {names : List (List Char)} (areNames : ∀ name ∈ names, Path.IsName name) :
      Visit ps (Path.rooted (ps ++ names))
  | back {os : List (List Char)} {name : List Char} (tidy : Path.Tidy os)
      (grand : Path.parent? (Path.rooted ps) = some (Path.rooted os))
      (isName : Path.IsName name) : Visit ps (Path.rooted (os ++ [name]))

theorem plain_of_find (plain : files.root.Plain) (whole : Path.Whole ps) {tree : FileTree}
    (finds : files.find (Path.rooted ps) = .ok tree) : tree.Plain := by
  obtain ⟨-, -, goal, -, stands⟩ := (FileSystem.find_rooted_eq_ok_iff plain whole).mp finds
  exact (plain.at? stands).1

theorem eq_rooted_of_mem_filesIn (plain : files.root.Plain) (tidy : Path.Tidy ps)
    (member : path ∈ filesIn files (Path.rooted ps)) :
    ∃ name, Path.IsName name ∧ path = Path.rooted (ps ++ [name]) := by
  obtain ⟨modified, entries, finds, name, bytes, time, entry, rfl⟩ := mem_filesIn_iff.mp member
  cases plain_of_find plain tidy.whole finds with
  | dir once names trees =>
    have isName := (names _ entry).toIsName
    exact ⟨name, isName, tidy.append_eq isName⟩

theorem visit_of_mem_visited (plain : files.root.Plain) (tidy : Path.Tidy ps)
    (member : path ∈ visited files settings (Path.rooted ps)) : Visit ps path := by
  rw [visited, List.mem_append, List.mem_append, mem_filesFrom_iff, mem_filesAround_iff] at member
  rcases member with (inDir | ⟨modified, entries, finds, deeper⟩ | ⟨_, _, _, rfl⟩) |
    ⟨outer, grand, inOuter⟩
  · obtain ⟨name, isName, rfl⟩ := eq_rooted_of_mem_filesIn plain tidy inDir
    exact .down (by simpa using isName)
  · have plainDir := plain_of_find plain tidy.whole finds
    obtain ⟨inner, name, _, _, -, stands, rfl⟩ := (mem_filesBelow_iff plainDir).mp deeper
    have areNames : ∀ part ∈ inner ++ [name], Path.IsName part := fun part inPath =>
      ((plainDir.at? stands).2 part inPath).toIsName
    rw [(tidy.below_eq areNames).2]
    exact .down areNames
  · have start : Visit ps (Path.rooted (ps ++ [])) := .down (by simp)
    rwa [List.append_nil] at start
  · rcases Path.parent?_of_isAbsolute (Path.isAbsolute_rooted ps) with
      ⟨topmost, -⟩ | ⟨os, last, tidyOuter, above, -⟩
    · cases topmost.symm.trans grand
    · cases above.symm.trans grand
      obtain ⟨name, isName, rfl⟩ := eq_rooted_of_mem_filesIn plain tidyOuter inOuter
      exact .back tidyOuter grand isName

/-! ## Where visits lead -/

/-- The place that parts lead to from the root. -/
def target (ps : List (List Char)) : List (List Char) :=
  (ps.filterMap Path.component?).foldl FileSystem.follow []

theorem eq_target_of_locate (plain : files.root.Plain) (whole : Path.Whole ps)
    {place : List (List Char)} (locates : files.locate (Path.rooted ps) = .ok place) :
    place = target ps :=
  ((FileSystem.locate_rooted_eq_ok_iff plain whole).mp locates).2.2.eq_foldl

theorem target_append {names : List (List Char)} (areNames : ∀ name ∈ names, Path.IsName name) :
    target (ps ++ names) = names.reverse ++ target ps := by
  rw [target, List.filterMap_append, Path.filterMap_names areNames, List.foldl_append,
    FileSystem.foldl_follow_names]
  rfl

theorem target_eq_of_components (whole : Path.Whole ps) (wholeOther : Path.Whole os)
    (same : Path.components (Path.rooted ps) = Path.components (Path.rooted os)) :
    target ps = target os := by
  rw [Path.components_rooted whole, Path.components_rooted wholeOther, List.cons.injEq] at same
  rw [target, same.2, target]

theorem exists_last (tidy : Path.Tidy ps) (tidyOuter : Path.Tidy os)
    (grand : Path.parent? (Path.rooted ps) = some (Path.rooted os)) :
    ∃ last, Path.components (Path.rooted ps) = Path.components (Path.rooted os) ++ [last] ∧
      target ps = FileSystem.follow (target os) last ∧
      (last = .parent ∨ ∃ name, last = .name name) := by
  rcases Path.parent?_of_isAbsolute (Path.isAbsolute_rooted ps) with
    ⟨topmost, -⟩ | ⟨above, last, -, parent, longer⟩
  · cases topmost.symm.trans grand
  · rw [Option.some.inj (parent.symm.trans grand)] at longer
    refine ⟨last, longer, ?_⟩
    rw [Path.components_rooted tidy.whole, Path.components_rooted tidyOuter.whole, List.cons_append,
      List.cons.injEq] at longer
    refine ⟨by rw [target, longer.2, List.foldl_append]; rfl, ?_⟩
    have member : last ∈ ps.filterMap Path.component? := by simp [longer.2]
    obtain ⟨part, -, speaks⟩ := List.mem_filterMap.mp member
    rcases Path.component?_cases part with silent | parent | isName
    · cases silent.symm.trans speaks
    · exact .inl (Option.some.inj (speaks.symm.trans parent))
    · exact .inr ⟨part, Option.some.inj (speaks.symm.trans isName)⟩

/-- The directory itself ends in a double dot. -/
def EndsInParent (dir : List Char) : Prop :=
  (Path.components dir).getLast? = some .parent

theorem components_down_eq_back {names : List (List Char)} {name : List Char}
    (tidy : Path.Tidy ps) (tidyOuter : Path.Tidy os)
    (grand : Path.parent? (Path.rooted ps) = some (Path.rooted os))
    (straight : ¬EndsInParent (Path.rooted ps)) (areNames : ∀ name ∈ names, Path.IsName name)
    (isName : Path.IsName name) (same : target (ps ++ names) = target (os ++ [name])) :
    Path.components (Path.rooted (ps ++ names)) = Path.components (Path.rooted (os ++ [name])) := by
  have single : ∀ other ∈ [name], Path.IsName other := List.forall_mem_singleton.mpr isName
  obtain ⟨last, longer, goal, rfl | ⟨n, rfl⟩⟩ := exists_last tidy tidyOuter grand
  · refine absurd ?_ straight
    rw [EndsInParent, longer, List.getLast?_concat]
  · rw [target_append areNames, goal, target_append single, FileSystem.follow,
      List.reverse_singleton, List.singleton_append] at same
    have bare : names = [] := by
      have lengths := congrArg List.length same
      simp only [List.length_append, List.length_reverse, List.length_cons] at lengths
      exact List.length_eq_zero_iff.mp (by omega)
    subst bare
    cases same
    rw [List.append_nil, longer, tidyOuter.components_append_singleton isName]

/-- Visits that lead to one place have the same components, unless the directory ends in
    a double dot. -/
theorem Visit.components_eq {other : List Char} {place : List (List Char)}
    (plain : files.root.Plain) (tidy : Path.Tidy ps) (straight : ¬EndsInParent (Path.rooted ps))
    (left : Visit ps path) (right : Visit ps other) (locates : files.locate path = .ok place)
    (locatesOther : files.locate other = .ok place) :
    Path.components path = Path.components other := by
  cases left with
  | @down names areNames =>
    have here := eq_target_of_locate plain (tidy.below_eq areNames).1.whole locates
    cases right with
    | down others =>
      have there := eq_target_of_locate plain (tidy.below_eq others).1.whole locatesOther
      rw [here, target_append areNames, target_append others, List.append_cancel_right_eq,
        List.reverse_inj] at there
      rw [there]
    | back tidyOuter grand isName =>
      have there := eq_target_of_locate plain (tidyOuter.append isName).whole locatesOther
      exact components_down_eq_back tidy tidyOuter grand straight areNames isName
        (here.symm.trans there)
  | back tidyOuter grand isName =>
    have here := eq_target_of_locate plain (tidyOuter.append isName).whole locates
    cases right with
    | down others =>
      have there := eq_target_of_locate plain (tidy.below_eq others).1.whole locatesOther
      exact (components_down_eq_back tidy tidyOuter grand straight others isName
        (there.symm.trans here)).symm
    | back tidyAgain grandAgain isNameAgain =>
      have there := eq_target_of_locate plain (tidyAgain.append isNameAgain).whole locatesOther
      have outer := congrArg Path.components (Option.some.inj (grand.symm.trans grandAgain))
      rw [here, target_append (List.forall_mem_singleton.mpr isName),
        target_append (List.forall_mem_singleton.mpr isNameAgain),
        target_eq_of_components tidyOuter.whole tidyAgain.whole outer, List.append_cancel_right_eq,
        List.reverse_inj, List.singleton_inj] at there
      rw [tidyOuter.components_append_singleton isName,
        tidyAgain.components_append_singleton isNameAgain, outer, there]

/-! ## Listing each file once -/

theorem locate_of_leadsTo {uri : String} {place : List (List Char)}
    (writes : uriOf? path = some uri) (leads : LeadsTo files uri place) :
    files.locate path = .ok place := by
  obtain ⟨named, names, absolute, locates⟩ := leads
  have same := (FileUri.isCanonical_of_ofPath (ofPath_of_uriOf? writes) names absolute).2
  cases names.symm.trans same
  exact locates

theorem visit_of_mem_listed (plain : files.root.Plain) (tidy : Path.Tidy ps)
    (member : path ∈ listed files settings document (Path.rooted ps)) : Visit ps path :=
  visit_of_mem_visited plain tidy
    (mem_visited_of_mem_candidates (List.mem_of_mem_filter member))

theorem mem_uris_of_mem_listed (plain : files.root.Plain) (tidy : Path.Tidy ps)
    (member : path ∈ listed files settings document (Path.rooted ps)) :
    Path.isAbsolute path = true ∧
      String.ofList (FileUri.ofAbsolute path) ∈
        (listed files settings document (Path.rooted ps)).filterMap uriOf? := by
  have absolute : Path.isAbsolute path = true := by
    cases visit_of_mem_listed plain tidy member with
    | down areNames => exact Path.isAbsolute_rooted _
    | back tidyOuter grand isName => exact Path.isAbsolute_rooted _
  exact ⟨absolute, List.mem_filterMap.mpr ⟨path, member, (uriOf?_of_isAbsolute absolute).2⟩⟩

theorem pairwise_apart (plain : files.root.Plain) (tidy : Path.Tidy ps)
    (straight : ¬EndsInParent (Path.rooted ps)) :
    ((listed files settings document (Path.rooted ps)).filterMap uriOf?).Pairwise
      fun left right => ∀ place, LeadsTo files left place → ¬LeadsTo files right place := by
  have ordered : Ordered (listed files settings document (Path.rooted ps)) :=
    (ordered_candidates files settings (Path.rooted ps)).filter _
  have apart : (listed files settings document (Path.rooted ps)).Pairwise fun left right =>
      ∀ place, files.locate left = .ok place → files.locate right ≠ .ok place := by
    apply List.Pairwise.imp_of_mem _ ordered
    intro left right memberLeft memberRight less place locatesLeft locatesRight
    have same := (visit_of_mem_listed plain tidy memberLeft).components_eq plain tidy straight
      (visit_of_mem_listed plain tidy memberRight) locatesLeft locatesRight
    cases (Path.compare_eq_eq_iff.mpr same).symm.trans less
  apply List.Pairwise.filterMap uriOf? _ apart
  intro left right differ uri writes other writesOther place leads leadsOther
  exact differ place (locate_of_leadsTo writes leads) (locate_of_leadsTo writesOther leadsOther)

/-! ## Listing a file twice -/

section

variable {front : List (List Char)} {last n name : List Char} {rest : List (List Char)}

theorem components_down_ne_back {names : List (List Char)} (tidy : Path.Tidy ps)
    (tidyOuter : Path.Tidy os) (grand : Path.parent? (Path.rooted ps) = some (Path.rooted os))
    (ends : EndsInParent (Path.rooted ps)) (areNames : ∀ name ∈ names, Path.IsName name)
    (isName : Path.IsName name) :
    Path.components (Path.rooted (ps ++ names)) ≠
      Path.components (Path.rooted (os ++ [name])) := by
  obtain ⟨last, longer, -, -⟩ := exists_last tidy tidyOuter grand
  have parent : last = .parent := by
    rw [EndsInParent, longer, List.getLast?_concat] at ends
    exact Option.some.inj ends
  intro same
  rw [tidy.components_append areNames, tidyOuter.components_append_singleton isName, longer,
    parent, List.append_assoc, List.append_cancel_left_eq] at same
  cases same

/-- Behind a double dot, no two spellings of a visit have the same components. -/
theorem Visit.eq_of_components {other : List Char} (tidy : Path.Tidy ps)
    (ends : EndsInParent (Path.rooted ps)) (left : Visit ps path) (right : Visit ps other)
    (same : Path.components path = Path.components other) : path = other := by
  cases left with
  | down areNames =>
    cases right with
    | down others =>
      rw [tidy.components_append areNames, tidy.components_append others,
        List.append_cancel_left_eq] at same
      rw [List.map_injective_iff.mpr (fun _ _ => Path.Component.name.inj) same]
    | back tidyOuter grand isName =>
      exact absurd same (components_down_ne_back tidy tidyOuter grand ends areNames isName)
  | back tidyOuter grand isName =>
    cases right with
    | down others =>
      exact absurd same.symm (components_down_ne_back tidy tidyOuter grand ends others isName)
    | back tidyAgain grandAgain isNameAgain =>
      have outer := Option.some.inj (grand.symm.trans grandAgain)
      rw [tidyOuter.components_append_singleton isName,
        tidyAgain.components_append_singleton isNameAgain, outer,
        List.append_cancel_left_eq] at same
      cases same
      rw [← tidyOuter.append_eq isName, ← tidyAgain.append_eq isNameAgain, outer]

theorem mem_candidates_of_mem_visited (plain : files.root.Plain) (tidy : Path.Tidy ps)
    (ends : EndsInParent (Path.rooted ps))
    (member : path ∈ visited files settings (Path.rooted ps)) :
    path ∈ candidates files settings (Path.rooted ps) := by
  obtain ⟨other, candidate, same⟩ := exists_mem_candidates member
  have visit := visit_of_mem_visited plain tidy member
  have visitOther := visit_of_mem_visited plain tidy (mem_visited_of_mem_candidates candidate)
  rwa [← visitOther.eq_of_components tidy ends visit same]

/-- A file right in a directory can be reached from `..` behind that directory. -/
theorem leads_back (plain : files.root.Plain) (tidy : Path.Tidy (front ++ [last]))
    (parent : Path.component? last = some .parent) (isName : Path.IsName name)
    {tree : FileTree} (stands : files.root.at? (rest.reverse ++ [n] ++ [name]) = some tree)
    (locates : files.locate (Path.rooted (Path.upToLast front ++ [name])) =
      .ok (name :: n :: rest)) :
    files.Leads [] (Path.upToLast front) (n :: rest) ∧ files.Leads [] (front ++ [last]) rest := by
  obtain ⟨-, -, leads⟩ :=
    (FileSystem.locate_rooted_eq_ok_iff plain (tidy.front.append isName).whole).mp locates
  obtain ⟨between, toOuter, toFile⟩ := FileSystem.leads_append_iff.mp leads
  have here : name :: n :: rest = name :: between := by
    have goal := toFile.eq_foldl
    rwa [List.filterMap_cons, isName.speaks] at goal
  cases here
  refine ⟨toOuter, ?_⟩
  obtain ⟨modified, entries, dir, -⟩ := FileTree.at?_concat_eq_some_iff.mp stands
  have outer : files.root.at? (n :: rest).reverse = some (.dir modified entries) := by
    rwa [List.reverse_cons]
  obtain ⟨silent, split, quiet⟩ := (Path.upToLast_spec front).1
  have toFront : files.Leads [] front (n :: rest) := by
    rw [split]
    exact FileSystem.leads_append_iff.mpr ⟨_, toOuter, FileSystem.leads_of_silent outer quiet⟩
  exact FileSystem.leads_append_iff.mpr ⟨_, toFront, .up outer parent (.done _)⟩

theorem visited_twice (plain : files.root.Plain) (tidy : Path.Tidy (front ++ [last]))
    (parent : Path.component? last = some .parent) {bytes : List UInt8} {modified : Int}
    (stands : files.root.at? (rest.reverse ++ [n] ++ [name]) = some (.file bytes modified))
    (locates : files.locate (Path.rooted (Path.upToLast front ++ [name])) =
      .ok (name :: n :: rest))
    (follows : Follows (settings.excludedDirs.map String.toList) (searchDepth settings) [n] name)
    (usable : FileSystem.Usable (Path.rooted (front ++ [last] ++ [n, name]))) :
    Path.rooted (Path.upToLast front ++ [name]) ∈
        visited files settings (Path.rooted (front ++ [last])) ∧
      Path.rooted (front ++ [last] ++ [n, name]) ∈
        visited files settings (Path.rooted (front ++ [last])) ∧
      files.locate (Path.rooted (front ++ [last] ++ [n, name])) = .ok (name :: n :: rest) := by
  have proper := (plain.at? stands).2
  have isName := (proper name (by simp)).toIsName
  have areNames : ∀ part ∈ [n, name], Path.IsName part := by
    simpa using ⟨(proper n (by simp)).toIsName, isName⟩
  obtain ⟨toOuter, toDir⟩ := leads_back plain tidy parent isName stands locates
  obtain ⟨usableFile, top, -⟩ :=
    (FileSystem.locate_rooted_eq_ok_iff plain (tidy.front.append isName).whole).mp locates
  obtain ⟨_, entries, outer, entry⟩ := FileTree.at?_concat_eq_some_iff.mp stands
  obtain ⟨time, outerEntries, dir, outerEntry⟩ := FileTree.at?_concat_eq_some_iff.mp outer
  refine ⟨?_, ?_, ?_⟩
  · have findOuter := (FileSystem.find_rooted_eq_ok_iff plain tidy.front.whole).mpr
      ⟨usableFile.of_sublist (List.sublist_append_left _ _), top, _, toOuter, by simpa using outer⟩
    have inOuter := mem_filesIn_iff.mpr ⟨_, _, findOuter, name, bytes, modified,
      FileTree.mem_of_entryOf entry, (tidy.front.append_eq isName).symm⟩
    exact List.mem_append_right _ (mem_filesAround_iff.mpr ⟨_, tidy.parent?_eq, inOuter⟩)
  · have findDir := (FileSystem.find_rooted_eq_ok_iff plain tidy.whole).mpr
      ⟨usable.of_sublist (List.sublist_append_left _ _), top, rest, toDir, dir⟩
    have inner : (FileTree.dir time outerEntries).at? ([n] ++ [name]) =
        some (.file bytes modified) := by
      rwa [List.append_assoc, FileTree.at?_append, dir, Option.bind_some] at stands
    have deeper := (mem_filesBelow_iff (plain.at? dir).1).mpr
      ⟨[n], name, bytes, modified, follows, inner, (tidy.below_eq areNames).2.symm⟩
    have fromDir := mem_filesFrom_iff.mpr (.inl ⟨_, _, findDir, deeper⟩)
    exact List.mem_append_left _ (List.mem_append_right _ fromDir)
  · have isOuter := (proper n (by simp)).toIsName
    have toFile : files.Leads rest [n, name] (name :: n :: rest) :=
      .down dir isOuter.speaks outerEntry
        (.down (by rwa [List.reverse_cons]) isName.speaks entry (.done _))
    exact (FileSystem.locate_rooted_eq_ok_iff plain (tidy.below_eq areNames).1.whole).mpr
      ⟨usable, top, FileSystem.leads_append_iff.mpr ⟨rest, toDir, toFile⟩⟩

theorem isDescription_of_same_file {other : List Char} {tree : FileTree}
    (described : isDescription files settings document path = true)
    (finds : files.find path = .ok tree) (findsOther : files.find other = .ok tree)
    (ends : Path.fileName? other = Path.fileName? path)
    (apart : Path.components other ≠ Path.components document) :
    isDescription files settings document other = true := by
  rw [isDescription, isInspected, Bool.and_eq_true, Bool.and_eq_true] at described ⊢
  obtain ⟨⟨-, extension⟩, marked⟩ := described
  refine ⟨⟨by simpa [Path.same] using apart, ?_⟩, ?_⟩
  · rwa [hasExtension, Path.extension?, ends]
  · obtain ⟨bytes, modified, found, marker⟩ := hasMarker_iff.mp marked
    cases finds.symm.trans found
    exact hasMarker_iff.mpr ⟨bytes, modified, findsOther, marker⟩

end

/-- A description in a directory, where the directory of the document is `..` behind that
    directory: the search from there comes upon the description by the names of the
    directory and the file. -/
structure Detour (files : FileSystem) (settings : DiscoverySettings)
    (document dir outer : List Char) (n name : List Char) (rest : List (List Char)) : Prop where
  parent : Path.parent? document = some dir
  grand : Path.parent? dir = some outer
  ends : EndsInParent dir
  locates : files.locate (Path.append outer name) = .ok (name :: n :: rest)
  described : isDescription files settings document (Path.append outer name) = true
  follows : Follows (settings.excludedDirs.map String.toList) (searchDepth settings) [n] name
  usable : FileSystem.Usable (Path.below dir [n, name])

theorem Detour.stands {dir outer n name : List Char} {rest : List (List Char)}
    (detour : Detour files settings document dir outer n name rest) :
    ∃ bytes modified, files.find (Path.append outer name) = .ok (.file bytes modified) ∧
      files.root.at? (rest.reverse ++ [n] ++ [name]) = some (.file bytes modified) := by
  have described := detour.described
  rw [isDescription, Bool.and_eq_true] at described
  obtain ⟨bytes, modified, finds, -⟩ := hasMarker_iff.mp described.2
  obtain ⟨goal, locates, stands⟩ := FileSystem.find_eq_ok_iff.mp finds
  cases detour.locates.symm.trans locates
  exact ⟨bytes, modified, finds, by simpa using stands⟩

theorem Detour.parts {dir outer n name : List Char} {rest : List (List Char)}
    (plain : files.root.Plain) (absolute : Path.isAbsolute document = true)
    (detour : Detour files settings document dir outer n name rest) :
    ∃ front last, Path.Tidy (front ++ [last]) ∧ Path.component? last = some .parent ∧
      dir = Path.rooted (front ++ [last]) ∧ outer = Path.rooted (Path.upToLast front) ∧
      Path.IsName n ∧ Path.IsName name := by
  obtain ⟨bytes, modified, -, stands⟩ := detour.stands
  have proper := (plain.at? stands).2
  rcases Path.parent?_of_isAbsolute absolute with ⟨topmost, -⟩ | ⟨ps, _, tidy, parent, -⟩
  · cases topmost.symm.trans detour.parent
  · have same := Option.some.inj (parent.symm.trans detour.parent)
    have grand := detour.grand
    have ends := detour.ends
    rw [← same] at grand ends
    cases ps using List.reverseRecOn with
    | nil => cases grand
    | append_singleton front last =>
      obtain ⟨component, speaks⟩ := Option.ne_none_iff_exists'.mp (tidy.ends front last rfl)
      have isParent : component = .parent := by
        rw [EndsInParent, Path.components_rooted tidy.whole, List.filterMap_append,
          List.filterMap_cons, speaks, List.filterMap_nil, ← List.cons_append,
          List.getLast?_concat] at ends
        exact Option.some.inj ends
      rw [tidy.parent?_eq] at grand
      exact ⟨front, last, tidy, isParent ▸ speaks, same.symm, (Option.some.inj grand).symm,
        (proper n (by simp)).toIsName, (proper name (by simp)).toIsName⟩

theorem Detour.listed_twice {dir outer n name : List Char} {rest : List (List Char)}
    (plain : files.root.Plain) (absolute : Path.isAbsolute document = true)
    (detour : Detour files settings document dir outer n name rest) :
    Path.append outer name ∈ listed files settings document dir ∧
      Path.below dir [n, name] ∈ listed files settings document dir ∧
      Path.append outer name ≠ Path.below dir [n, name] ∧
      files.locate (Path.below dir [n, name]) = .ok (name :: n :: rest) := by
  obtain ⟨front, last, tidy, isParent, rfl, rfl, isOuter, isName⟩ := detour.parts plain absolute
  obtain ⟨bytes, modified, finds, stands⟩ := detour.stands
  obtain ⟨parent, grand, ends, locates, described, follows, usable⟩ := detour
  have areNames : ∀ part ∈ [n, name], Path.IsName part := by simpa using ⟨isOuter, isName⟩
  rw [tidy.front.append_eq isName] at *
  rw [(tidy.below_eq areNames).2] at *
  obtain ⟨seenBack, seen, leads⟩ := visited_twice plain tidy isParent stands locates follows usable
  obtain ⟨component, longer, -, -⟩ := exists_last tidy tidy.front grand
  have down := tidy.components_append areNames
  have back := tidy.front.components_append_singleton isName
  have apart : Path.components (Path.rooted (front ++ [last] ++ [n, name])) ≠
      Path.components document := by
    rcases Path.parent?_of_isAbsolute absolute with ⟨topmost, -⟩ | ⟨_, _, -, grand, above⟩
    · cases topmost.symm.trans parent
    · rw [Option.some.inj (grand.symm.trans parent)] at above
      intro same
      have lengths := congrArg List.length (down.symm.trans (same.trans above))
      simp at lengths
  refine ⟨?_, ?_, ?_, leads⟩
  · exact List.mem_filter.mpr ⟨mem_candidates_of_mem_visited plain tidy ends seenBack, described⟩
  · have findsDown := FileSystem.find_eq_ok_iff.mpr ⟨_, leads, by simpa using stands⟩
    have fileName := Path.fileName?_of_components back
    have sameName : Path.fileName? (Path.rooted (front ++ [last] ++ [n, name])) = some name := by
      have split : [n, name].map Path.Component.name = [.name n] ++ [.name name] := rfl
      rw [split, ← List.append_assoc] at down
      exact Path.fileName?_of_components down
    exact List.mem_filter.mpr ⟨mem_candidates_of_mem_visited plain tidy ends seen,
      isDescription_of_same_file described finds findsDown (sameName.trans fileName.symm) apart⟩
  · intro same
    have lengths := congrArg List.length (congrArg Path.components same)
    rw [back, down, longer] at lengths
    simp at lengths

/-- A description two directories down. -/
def nook : FileSystem where
  root := .dir 0 [("a".toList, .dir 0 [("b".toList, .dir 0 [("pets.yaml".toList, described)])])]
  workDir := []

theorem plain_nook : nook.root.Plain := by
  have inner : FileTree.Plain (.dir 0 [("pets.yaml".toList, described)]) :=
    .dir (by decide) (by decide) (List.forall_mem_singleton.mpr (.file _ _))
  have outer : FileTree.Plain (.dir 0 [("b".toList, .dir 0 [("pets.yaml".toList, described)])]) :=
    .dir (by decide) (by decide) (List.forall_mem_singleton.mpr inner)
  exact .dir (by decide) (by decide) (List.forall_mem_singleton.mpr outer)

theorem toPath_nook :
    FileUri.toPath "file:///a/b/../flow.yaml".toList = .ok "/a/b/../flow.yaml".toList :=
  FileUri.toPath_escape "a/b/../flow.yaml".toList

theorem discover_nook : discover nook {} "file:///a/b/../flow.yaml" =
    .ok ["file:///a/b/../b/pets.yaml", "file:///a/b/pets.yaml"] := by
  have found : near nook {} "/a/b/../flow.yaml".toList =
      ["file:///a/b/../b/pets.yaml", "file:///a/b/pets.yaml"] := by decide +kernel
  rw [discover_of_toPath toPath_nook, found]

theorem detour_nook : Detour nook {} "/a/b/../flow.yaml".toList "/a/b/..".toList "/a/b".toList
    "b".toList "pets.yaml".toList ["a".toList] where
  parent := by decide
  grand := by decide
  ends := rfl
  locates := by decide +kernel
  described := by decide +kernel
  follows := ⟨by decide, by decide, by decide⟩
  usable := ⟨by decide, by decide⟩

/-- In a tree without links, no two uris lead to one file, unless the directory of the
    document ends in a double dot: then a description in the directory before the double
    dot is listed by its path there and by the path through the double dot. -/
theorem discover_once_unless_detour {uri : String} {uris : List String}
    (plain : files.root.Plain) (names : FileUri.toPath uri.toList = .ok document)
    (absolute : Path.isAbsolute document = true) (finds : discover files settings uri = .ok uris) :
    ((∀ dir, Path.parent? document = some dir → ¬EndsInParent dir) →
      uris.Pairwise fun left right =>
        ∀ place, LeadsTo files left place → ¬LeadsTo files right place) ∧
    ∀ dir outer n name rest, Detour files settings document dir outer n name rest →
      ∃ left ∈ uris, ∃ right ∈ uris, left ≠ right ∧
        FileUri.ofPath (Path.append outer name) = .ok left.toList ∧
        FileUri.ofPath (Path.below dir [n, name]) = .ok right.toList ∧
        files.locate (Path.append outer name) = .ok (name :: n :: rest) ∧
        files.locate (Path.below dir [n, name]) = .ok (name :: n :: rest) := by
  rw [discover_of_toPath names] at finds
  cases finds
  rcases Path.parent?_of_isAbsolute absolute with ⟨topmost, -⟩ | ⟨ps, _, tidy, parent, -⟩
  · constructor
    · rw [near, topmost]
      exact fun _ => List.Pairwise.nil
    · intro dir outer n name rest detour
      cases topmost.symm.trans detour.parent
  · rw [near_of_parent parent]
    constructor
    · intro straight
      exact pairwise_apart plain tidy (straight _ parent)
    · intro dir outer n name rest detour
      obtain ⟨back, down, apart, leads⟩ := detour.listed_twice plain absolute
      rw [← Option.some.inj (parent.symm.trans detour.parent)] at back down apart leads ⊢
      obtain ⟨absoluteBack, inUris⟩ := mem_uris_of_mem_listed plain tidy back
      obtain ⟨absoluteDown, inUrisDown⟩ := mem_uris_of_mem_listed plain tidy down
      refine ⟨_, inUris, _, inUrisDown, ?_, ?_, ?_, detour.locates, leads⟩
      · intro same
        exact apart (FileUri.ofAbsolute_injective absoluteBack absoluteDown
          (String.ofList_injective same))
      · rw [String.toList_ofList]
        exact (uriOf?_of_isAbsolute absoluteBack).1
      · rw [String.toList_ofList]
        exact (uriOf?_of_isAbsolute absoluteDown).1

theorem once_on_shelf_and_twice_in_nook :
    ["file:///sub/pets.yaml", "file:///sub/v1/cats.JSON"].Pairwise (fun left right =>
      ∀ place, LeadsTo shelf left place → ¬LeadsTo shelf right place) ∧
    ∃ left ∈ ["file:///a/b/../b/pets.yaml", "file:///a/b/pets.yaml"],
      ∃ right ∈ ["file:///a/b/../b/pets.yaml", "file:///a/b/pets.yaml"], left ≠ right := by
  constructor
  · have parent : Path.parent? "/sub/flow.yaml".toList = some "/sub".toList := by decide
    refine (discover_once_unless_detour plain_shelf toPath_shelf (by decide) discover_shelf).1 ?_
    intro dir isDir
    cases parent.symm.trans isDir
    unfold EndsInParent
    decide
  · obtain ⟨left, member, right, memberRight, differ, -⟩ :=
      (discover_once_unless_detour plain_nook toPath_nook (by decide) discover_nook).2 _ _ _ _ _
        detour_nook
    exact ⟨left, member, right, memberRight, differ⟩

/-- A description is listed twice: from above, and in the directory before the double dot. -/
theorem not_once_in_nook :
    ∃ uri document uris, nook.root.Plain ∧ FileUri.toPath uri.toList = .ok document ∧
      Path.isAbsolute document = true ∧ discover nook {} uri = .ok uris ∧
      ¬uris.Pairwise fun left right =>
        ∀ place, LeadsTo nook left place → ¬LeadsTo nook right place := by
  have down : LeadsTo nook "file:///a/b/../b/pets.yaml"
      ["pets.yaml".toList, "b".toList, "a".toList] :=
    ⟨_, FileUri.toPath_escape "a/b/../b/pets.yaml".toList, by decide, by decide +kernel⟩
  have back : LeadsTo nook "file:///a/b/pets.yaml"
      ["pets.yaml".toList, "b".toList, "a".toList] :=
    ⟨_, FileUri.toPath_escape "a/b/pets.yaml".toList, by decide, by decide +kernel⟩
  refine ⟨_, _, _, plain_nook, toPath_nook, by decide, discover_nook, ?_⟩
  intro apart
  exact List.rel_of_pairwise_cons apart List.mem_cons_self _ down back

end ApiWorkflow.Discovery
