import ApiWorkflow.Proofs.File.Walk

/-! # Trees that differ in some files

Two trees of files may differ in plain files that one of them has and the other has not,
or has with another content. A walk that ends elsewhere takes the same way in both trees,
so every other file reads the same.
-/

namespace ApiWorkflow.FileSystem

/-- What stands at a place of two trees, as far as walking and reading can tell: the times
    of changes and the entries of directories may differ. -/
inductive Alike : Option FileTree → Option FileTree → Prop where
  | nothing : Alike none none
  | file {bytes : List UInt8} {modified later : Int} :
    Alike (some (.file bytes modified)) (some (.file bytes later))
  | link {target : List Char} : Alike (some (.link target)) (some (.link target))
  | dir {modified later : Int} {entries others : List (List Char × FileTree)} :
    Alike (some (.dir modified entries)) (some (.dir later others))

/-- A plain file, or nothing. -/
inductive AtMostFile : Option FileTree → Prop where
  | nothing : AtMostFile none
  | file {bytes : List UInt8} {modified : Int} : AtMostFile (some (.file bytes modified))

/-- Only plain files at the places `changed` were added, changed or taken away. -/
structure DifferAt (changed : List (List Char) → Prop) (fs other : FileSystem) : Prop where
  workDir : fs.workDir = other.workDir
  alike : ∀ place, ¬changed place → Alike (fs.root.at? place) (other.root.at? place)
  before : ∀ place, changed place → AtMostFile (fs.root.at? place)
  behind : ∀ place, changed place → AtMostFile (other.root.at? place)

theorem Alike.symm {left right : Option FileTree} (alike : Alike left right) :
    Alike right left := by
  cases alike with
  | nothing => exact .nothing
  | file => exact .file
  | link => exact .link
  | dir => exact .dir

theorem Alike.refl (found : Option FileTree) : Alike found found := by
  cases found with
  | none => exact .nothing
  | some tree =>
    cases tree with
    | file => exact .file
    | link => exact .link
    | dir => exact .dir

variable {changed : List (List Char) → Prop} {fs other : FileSystem}

theorem DifferAt.symm (differ : DifferAt changed fs other) : DifferAt changed other fs :=
  ⟨differ.workDir.symm, fun place kept => (differ.alike place kept).symm, differ.behind,
    differ.before⟩

theorem DifferAt.dir (differ : DifferAt changed fs other) {place : List (List Char)}
    {modified : Int} {entries : List (List Char × FileTree)}
    (stands : fs.root.at? place = some (.dir modified entries)) :
    ∃ later others, other.root.at? place = some (.dir later others) := by
  have kept : ¬changed place := by
    intro isChanged
    have flat := differ.before place isChanged
    rw [stands] at flat
    cases flat
  have alike := differ.alike place kept
  rw [stands] at alike
  generalize other.root.at? place = found at alike
  cases alike
  exact ⟨_, _, rfl⟩

theorem entryOf_eq_at? {place : List (List Char)} {modified : Int}
    {entries : List (List Char × FileTree)}
    (stands : fs.root.at? place.reverse = some (.dir modified entries)) (part : List Char) :
    FileTree.entryOf part entries = fs.root.at? (part :: place).reverse := by
  rw [List.reverse_cons, FileTree.at?_append, stands]
  simp only [Option.bind_some, FileTree.at?]
  cases FileTree.entryOf part entries with
  | none => rfl
  | some inner => exact (FileTree.at?_nil inner).symm

/-- A part of a path that is looked up by its name. -/
structure IsEntryName (part : List Char) : Prop where
  noDot : part ≠ ['.']
  noDots : part ≠ ['.', '.']
  short : (Text.Utf8.encode part).length ≤ longestName

/-- What a walk does with the next part at a place: which links may still be followed, where
    it stands then, and which parts remain. -/
inductive Step (fs : FileSystem) (place rest : List (List Char)) :
    Nat → List Char → Nat → List (List Char) → List (List Char) → Prop where
  | stay {links : Nat} : Step fs place rest links ['.'] links place rest
  | up {links : Nat} : Step fs place rest links ['.', '.'] links place.tail rest
  | down {links : Nat} {part : List Char} {tree : FileTree} (name : IsEntryName part)
      (entry : fs.root.at? (part :: place).reverse = some tree)
      (noLink : ∀ target, tree ≠ .link target) :
    Step fs place rest links part links (part :: place) rest
  | follow {links : Nat} {part target : List Char} (name : IsEntryName part)
      (entry : fs.root.at? (part :: place).reverse = some (.link target))
      (nonempty : target.isEmpty = false) :
    Step fs place rest (links + 1) part links (if Path.isAbsolute target then [] else place)
      (steps target ++ rest)

theorem exists_step_of_walk {bound links : Nat} {place rest goal : List (List Char)}
    {part : List Char} (walks : fs.walk (bound + 1) links place (part :: rest) = .ok goal) :
    (∃ modified entries, fs.root.at? place.reverse = some (.dir modified entries)) ∧
      ∃ links' place' rest', Step fs place rest links part links' place' rest' ∧
        fs.walk bound links' place' rest' = .ok goal := by
  rw [FileSystem.walk] at walks
  cases stands : fs.root.at? place.reverse with
  | none => simp [stands] at walks
  | some tree =>
    cases tree with
    | file bytes modified => simp [stands] at walks
    | link target => simp [stands] at walks
    | dir modified entries =>
      refine ⟨⟨modified, entries, rfl⟩, ?_⟩
      simp only [stands, entryOf_eq_at? stands] at walks
      by_cases noDot : part = ['.']
      · rw [if_pos (beq_iff_eq.mpr noDot)] at walks
        exact ⟨_, _, _, noDot ▸ .stay, walks⟩
      by_cases noDots : part = ['.', '.']
      · rw [if_neg (by simpa using noDot), if_pos (beq_iff_eq.mpr noDots)] at walks
        exact ⟨_, _, _, noDots ▸ .up, walks⟩
      by_cases long : longestName < (Text.Utf8.encode part).length
      · rw [if_neg (by simpa using noDot), if_neg (by simpa using noDots), if_pos long] at walks
        cases walks
      rw [if_neg (by simpa using noDot), if_neg (by simpa using noDots), if_neg long] at walks
      have name : IsEntryName part := ⟨noDot, noDots, Nat.le_of_not_lt long⟩
      cases entry : fs.root.at? (part :: place).reverse with
      | none =>
        rw [entry] at walks
        cases walks
      | some inner =>
        cases inner with
        | file bytes time =>
          rw [entry] at walks
          exact ⟨_, _, _, .down name entry (by simp), walks⟩
        | dir time inner =>
          rw [entry] at walks
          exact ⟨_, _, _, .down name entry (by simp), walks⟩
        | link target =>
          rw [entry] at walks
          cases links with
          | zero => cases walks
          | succ links =>
            dsimp only at walks
            by_cases empty : target.isEmpty
            · rw [if_pos empty] at walks
              cases walks
            · rw [if_neg empty] at walks
              exact ⟨_, _, _, .follow name entry (by simpa using empty), walks⟩

theorem walk_of_step {bound links links' : Nat} {place place' rest rest' goal : List (List Char)}
    {part : List Char} {modified : Int} {entries : List (List Char × FileTree)}
    (stands : fs.root.at? place.reverse = some (.dir modified entries))
    (step : Step fs place rest links part links' place' rest')
    (walks : fs.walk bound links' place' rest' = .ok goal) :
    fs.walk (bound + 1) links place (part :: rest) = .ok goal := by
  rw [FileSystem.walk, stands]
  simp only [entryOf_eq_at? stands]
  cases step with
  | stay => simpa using walks
  | up => simpa using walks
  | down name entry noLink =>
    rw [if_neg (by simpa using name.noDot), if_neg (by simpa using name.noDots),
      if_neg (Nat.not_lt.mpr name.short), entry]
    rename_i tree
    cases tree with
    | file => exact walks
    | dir => exact walks
    | link target => exact absurd rfl (noLink target)
  | follow name entry nonempty =>
    rw [if_neg (by simpa using name.noDot), if_neg (by simpa using name.noDots),
      if_neg (Nat.not_lt.mpr name.short), entry]
    simpa [nonempty] using walks

theorem eq_of_walk {bound links : Nat} {place parts goal : List (List Char)}
    (walks : fs.walk bound links place parts = .ok goal)
    (noDir : AtMostFile (fs.root.at? place.reverse)) : goal = place := by
  cases parts with
  | nil =>
    have ends : Except.ok place = (.ok goal : Except FileFault _) := by
      simpa [FileSystem.walk] using walks
    exact (Except.ok.inj ends).symm
  | cons part rest =>
    cases bound with
    | zero => simp [FileSystem.walk] at walks
    | succ bound =>
      obtain ⟨⟨modified, entries, stands⟩, -⟩ := exists_step_of_walk walks
      rw [stands] at noDir
      cases noDir

/-- A step is the same in both trees, if the walk does not end in a changed file. -/
theorem DifferAt.step (differ : DifferAt changed fs other) {bound links links' : Nat}
    {place place' rest rest' goal : List (List Char)} {part : List Char}
    (step : Step fs place rest links part links' place' rest')
    (walks : fs.walk bound links' place' rest' = .ok goal) (kept : ¬changed goal.reverse) :
    Step other place rest links part links' place' rest' := by
  cases step with
  | stay => exact .stay
  | up => exact .up
  | down name entry noLink =>
    have unchanged : ¬changed (part :: place).reverse := by
      intro isChanged
      -- A changed file would have to be the end of the walk.
      rw [eq_of_walk walks (differ.before _ isChanged)] at kept
      exact kept isChanged
    have alike := differ.alike _ unchanged
    rw [entry] at alike
    generalize found : other.root.at? (part :: place).reverse = there at alike
    cases alike with
    | file => exact .down name found (by simp)
    | dir => exact .down name found (by simp)
    | link => exact absurd rfl (noLink _)
  | follow name entry nonempty =>
    have unchanged : ¬changed (part :: place).reverse := by
      intro isChanged
      have flat := differ.before _ isChanged
      rw [entry] at flat
      cases flat
    have alike := differ.alike _ unchanged
    rw [entry] at alike
    generalize found : other.root.at? (part :: place).reverse = there at alike
    cases alike
    exact .follow name found nonempty

/-- A walk through one tree that does not end in a changed file is a walk through the
    other. -/
theorem DifferAt.walk (differ : DifferAt changed fs other) {bound links : Nat}
    {place parts goal : List (List Char)} (walks : fs.walk bound links place parts = .ok goal)
    (kept : ¬changed goal.reverse) : other.walk bound links place parts = .ok goal := by
  induction bound generalizing links place parts with
  | zero =>
    cases parts with
    | nil => simpa [FileSystem.walk] using walks
    | cons part rest => simp [FileSystem.walk] at walks
  | succ bound ih =>
    cases parts with
    | nil => simpa [FileSystem.walk] using walks
    | cons part rest =>
      obtain ⟨⟨modified, entries, stands⟩, links', place', rest', step, goesOn⟩ :=
        exists_step_of_walk walks
      obtain ⟨later, others, standsToo⟩ := differ.dir stands
      exact walk_of_step standsToo (differ.step step goesOn kept) (ih goesOn)

/-- A path that leads to no changed file. -/
def Avoids (changed : List (List Char) → Prop) (fs : FileSystem) (path : List Char) : Prop :=
  ∀ goal, fs.locate path = .ok goal → ¬changed goal.reverse

theorem DifferAt.locate (differ : DifferAt changed fs other) {path : List Char}
    (avoids : Avoids changed fs path) {goal : List (List Char)}
    (located : fs.locate path = .ok goal) : other.locate path = .ok goal := by
  have kept := avoids goal located
  unfold FileSystem.locate at located ⊢
  rw [← differ.workDir]
  split at located
  · cases located
  split at located
  · cases located
  split at located
  · cases located
  · rename_i noNul notEmpty short
    rw [if_neg noNul, if_neg notEmpty, if_neg short]
    exact differ.walk located kept

theorem readBytes_eq_ok_iff {path : List Char} {bytes : List UInt8} :
    fs.readBytes path = .ok bytes ↔
      ∃ goal modified, fs.locate path = .ok goal ∧
        fs.root.at? goal.reverse = some (.file bytes modified) := by
  have reads : fs.readBytes path = .ok bytes ↔ ∃ modified, fs.find path = .ok (.file bytes modified) := by
    unfold FileSystem.readBytes
    cases found : fs.find path with
    | error fault => simp [bind, Except.bind]
    | ok tree => cases tree <;> simp [bind, Except.bind]
  rw [reads]
  simp only [find_eq_ok_iff]
  constructor
  · rintro ⟨modified, goal, located, stands⟩
    exact ⟨goal, modified, located, stands⟩
  · rintro ⟨goal, modified, located, stands⟩
    exact ⟨modified, goal, located, stands⟩

theorem DifferAt.readBytes (differ : DifferAt changed fs other) {path : List Char}
    (avoids : Avoids changed fs path) {bytes : List UInt8}
    (reads : fs.readBytes path = .ok bytes) : other.readBytes path = .ok bytes := by
  obtain ⟨goal, modified, located, stands⟩ := readBytes_eq_ok_iff.mp reads
  have alike := differ.alike _ (avoids goal located)
  rw [stands] at alike
  refine readBytes_eq_ok_iff.mpr ⟨goal, ?_⟩
  generalize other.root.at? goal.reverse = found at alike ⊢
  cases alike
  exact ⟨_, differ.locate avoids located, rfl⟩

/-- A file that is not changed has the same bytes in both trees, or can be read in
    neither. -/
theorem DifferAt.readBytes_toOption (differ : DifferAt changed fs other) {path : List Char}
    (avoids : Avoids changed fs path) (avoidsToo : Avoids changed other path) :
    (fs.readBytes path).toOption = (other.readBytes path).toOption := by
  cases reads : fs.readBytes path with
  | ok bytes => rw [differ.readBytes avoids reads]
  | error fault =>
    cases readsToo : other.readBytes path with
    | error otherFault => rfl
    | ok bytes =>
      rw [differ.symm.readBytes avoidsToo readsToo] at reads
      cases reads

theorem DifferAt.readText_toOption (differ : DifferAt changed fs other) {path : List Char}
    (avoids : Avoids changed fs path) (avoidsToo : Avoids changed other path) :
    (fs.readText path).toOption = (other.readText path).toOption := by
  have text (files : FileSystem) : (files.readText path).toOption =
      (files.readBytes path).toOption.bind fun bytes => (Text.Utf8.decode bytes).toOption := by
    unfold FileSystem.readText
    cases files.readBytes path with
    | error fault => rfl
    | ok bytes =>
      change _ = (Text.Utf8.decode bytes).toOption
      simp only [bind, Except.bind]
      cases Text.Utf8.decode bytes <;> rfl
  rw [text, text, differ.readBytes_toOption avoids avoidsToo]

/-! ## Adding a file and taking one away -/

theorem entryOf_cons (name : List Char) (entry : List Char × FileTree)
    (rest : List (List Char × FileTree)) :
    FileTree.entryOf name (entry :: rest) =
      if name = entry.1 then some entry.2 else FileTree.entryOf name rest := by
  rw [FileTree.entryOf, List.lookup_cons]
  by_cases same : name = entry.1
  · rw [if_pos same, beq_iff_eq.mpr same]
  · rw [if_neg same, beq_eq_false_iff_ne.mpr same, FileTree.entryOf]

theorem entryOf_setEntry (name other : List Char) (tree : FileTree)
    (entries : List (List Char × FileTree)) :
    FileTree.entryOf other (FileTree.setEntry name tree entries) =
      if other = name then some tree else FileTree.entryOf other entries := by
  induction entries with
  | nil => rw [FileTree.setEntry, entryOf_cons]
  | cons entry rest ih =>
    rw [FileTree.setEntry]
    by_cases here : entry.1 = name
    · rw [if_pos here, entryOf_cons, entryOf_cons, here]
      grind
    · rw [if_neg here, entryOf_cons, entryOf_cons, ih]
      grind

theorem entryOf_filter (name other : List Char) (entries : List (List Char × FileTree)) :
    FileTree.entryOf other (entries.filter (·.1 != name)) =
      if other = name then none else FileTree.entryOf other entries := by
  induction entries with
  | nil => exact (ite_self none).symm
  | cons entry rest ih =>
    rw [List.filter_cons, entryOf_cons]
    by_cases here : entry.1 = name
    · rw [if_neg (by simp [here]), ih, here]
      grind
    · rw [if_pos (by simp [here]), entryOf_cons, ih]
      grind

theorem at?_of_atMostFile {tree : FileTree} {name : List Char} {names : List (List Char)}
    (flat : AtMostFile (tree.at? [name])) (more : names ≠ []) : tree.at? (name :: names) = none := by
  have split : tree.at? (name :: names) = (tree.at? [name]).bind (·.at? names) :=
    FileTree.at?_append tree [name] names
  rw [split]
  generalize tree.at? [name] = found at flat
  obtain ⟨first, rest, rfl⟩ := List.exists_cons_of_ne_nil more
  cases flat <;> rfl

theorem at?_dir (modified : Int) (entries : List (List Char × FileTree)) (name : List Char)
    (names : List (List Char)) :
    (FileTree.dir modified entries).at? (name :: names) =
      (FileTree.entryOf name entries).bind (·.at? names) := by
  rw [FileTree.at?]
  cases FileTree.entryOf name entries <;> rfl

/-- Changes at one place of a tree: `new` is what stands there afterwards. -/
structure ChangesAt (place : List (List Char)) (new : Option FileTree) (tree changed : FileTree) :
    Prop where
  here : changed.at? place = new
  elsewhere : ∀ other, other ≠ place → Alike (tree.at? other) (changed.at? other)

theorem ChangesAt.cons {name : List Char} {place : List (List Char)} {new : Option FileTree}
    {inner changed : FileTree} (inside : ChangesAt place new inner changed) {modified : Int}
    {entries : List (List Char × FileTree)} (entry : FileTree.entryOf name entries = some inner) :
    ChangesAt (name :: place) new (.dir modified entries)
      (.dir modified (FileTree.setEntry name changed entries)) := by
  constructor
  · rw [at?_dir, entryOf_setEntry, if_pos rfl]
    exact inside.here
  · intro other ne
    cases other with
    | nil => exact .dir
    | cons first rest =>
      rw [at?_dir, at?_dir, entryOf_setEntry]
      by_cases same : first = name
      · subst same
        rw [if_pos rfl, entry]
        exact inside.elsewhere rest fun eq => ne (by rw [eq])
      · rw [if_neg same]
        exact .refl _

theorem changesAt_singleton {name : List Char} {new : Option FileTree} {modified later : Int}
    {entries others : List (List Char × FileTree)}
    (flat : AtMostFile ((FileTree.dir modified entries).at? [name])) (flatNew : AtMostFile new)
    (found : ∀ other, FileTree.entryOf other others =
      if other = name then new else FileTree.entryOf other entries) :
    ChangesAt [name] new (.dir modified entries) (.dir later others) := by
  constructor
  · rw [at?_dir, found, if_pos rfl]
    cases flatNew <;> rfl
  · intro other ne
    cases other with
    | nil => exact .dir
    | cons first rest =>
      by_cases same : first = name
      · subst same
        have more : rest ≠ [] := fun nothing => ne (by rw [nothing])
        rw [at?_of_atMostFile flat more, at?_dir, found, if_pos rfl]
        obtain ⟨second, rest, rfl⟩ := List.exists_cons_of_ne_nil more
        cases flatNew <;> exact .nothing
      · rw [at?_dir, at?_dir, found, if_neg same]
        exact .refl _

theorem changesAt_insert {tree : FileTree} {front : List (List Char)} {name : List Char}
    {modified now time : Int} {entries : List (List Char × FileTree)} {bytes : List UInt8}
    (stands : tree.at? front = some (.dir modified entries))
    (flat : AtMostFile (tree.at? (front ++ [name]))) :
    ChangesAt (front ++ [name]) (some (.file bytes time)) tree
      (FileTree.insert now (.file bytes time) tree (front ++ [name])) := by
  induction front generalizing tree with
  | nil =>
    rw [FileTree.at?_nil] at stands
    cases stands
    have inserted : ∃ later, FileTree.insert now (.file bytes time) (.dir modified entries) [name] =
        .dir later (FileTree.setEntry name (.file bytes time) entries) := by
      rw [FileTree.insert]
      cases FileTree.entryOf name entries with
      | none => exact ⟨now, rfl⟩
      | some tree => exact ⟨modified, by cases tree <;> rfl⟩
    obtain ⟨later, inserted⟩ := inserted
    rw [List.nil_append, inserted]
    apply changesAt_singleton flat (.file)
    intro other
    rw [entryOf_setEntry]
  | cons first front ih =>
    cases tree with
    | file => cases stands
    | link => cases stands
    | dir changed outer =>
      rw [at?_dir] at stands
      obtain ⟨inner, entry, below⟩ := Option.bind_eq_some_iff.mp stands
      rw [List.cons_append, at?_dir, entry] at flat
      have inside := ih below flat
      rw [List.cons_append, FileTree.insert, entry]
      exact inside.cons entry

theorem changesAt_erase {tree : FileTree} {front : List (List Char)} {name : List Char}
    {modified now : Int} {entries : List (List Char × FileTree)}
    (stands : tree.at? front = some (.dir modified entries))
    (flat : AtMostFile (tree.at? (front ++ [name]))) :
    ChangesAt (front ++ [name]) none tree (FileTree.erase now tree (front ++ [name])) := by
  induction front generalizing tree with
  | nil =>
    rw [FileTree.at?_nil] at stands
    cases stands
    have erased : ∃ later others, FileTree.erase now (.dir modified entries) [name] =
        .dir later others ∧ ∀ other, FileTree.entryOf other others =
          if other = name then none else FileTree.entryOf other entries := by
      rw [FileTree.erase]
      split
      · exact ⟨now, _, rfl, fun other => entryOf_filter name other entries⟩
      · rename_i missing
        refine ⟨modified, entries, rfl, ?_⟩
        intro other
        by_cases same : other = name
        · rw [if_pos same, same]
          simpa using missing
        · rw [if_neg same]
    obtain ⟨later, others, erased, found⟩ := erased
    rw [List.nil_append, erased]
    exact changesAt_singleton flat .nothing found
  | cons first front ih =>
    cases tree with
    | file => cases stands
    | link => cases stands
    | dir changed outer =>
      rw [at?_dir] at stands
      obtain ⟨inner, entry, below⟩ := Option.bind_eq_some_iff.mp stands
      rw [List.cons_append, at?_dir, entry] at flat
      have inside := ih below flat
      have goesOn : FileTree.erase now (.dir changed outer) (first :: (front ++ [name])) =
          .dir changed (FileTree.setEntry first (inner.erase now (front ++ [name])) outer) := by
        have nonempty : front ++ [name] ≠ [] := by simp
        obtain ⟨second, rest, more⟩ := List.exists_cons_of_ne_nil nonempty
        rw [more, FileTree.erase, entry]
        exact List.cons_ne_nil second rest
      rw [List.cons_append, goesOn]
      exact inside.cons entry

theorem ChangesAt.differAt {place : List (List Char)} {new : Option FileTree} {root : FileTree}
    (changes : ChangesAt place new fs.root root) (flat : AtMostFile (fs.root.at? place))
    (flatNew : AtMostFile new) : DifferAt (· = place) fs { fs with root := root } where
  workDir := rfl
  alike := changes.elsewhere
  before := fun other same => by rw [same]; exact flat
  behind := fun other same => by rw [same, changes.here]; exact flatNew

/-- A file that is added to a directory, or written over there, is all that changes. -/
theorem differAt_insert (front : List (List Char)) (name : List Char) {modified : Int}
    {entries : List (List Char × FileTree)}
    (stands : fs.root.at? front = some (.dir modified entries))
    (flat : AtMostFile (fs.root.at? (front ++ [name]))) (now time : Int) (bytes : List UInt8) :
    DifferAt (· = front ++ [name]) fs
      { fs with root := FileTree.insert now (.file bytes time) fs.root (front ++ [name]) } :=
  (changesAt_insert stands flat).differAt flat .file

theorem differAt_erase (front : List (List Char)) (name : List Char) {modified : Int}
    {entries : List (List Char × FileTree)}
    (stands : fs.root.at? front = some (.dir modified entries))
    (flat : AtMostFile (fs.root.at? (front ++ [name]))) (now : Int) :
    DifferAt (· = front ++ [name]) fs
      { fs with root := fs.root.erase now (front ++ [name]) } :=
  (changesAt_erase stands flat).differAt flat .nothing

end ApiWorkflow.FileSystem
