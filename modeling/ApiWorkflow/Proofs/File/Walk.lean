import ApiWorkflow.File.Tree
import ApiWorkflow.Proofs.File.Parts

/-! # Walking a tree without links

In a tree without links a path leads where its components say: each name leads to the
entry of that name and each double dot to the directory around. `FileSystem.Leads` is
this rule, and `FileSystem.walk` follows it.
-/

namespace ApiWorkflow

/-! ## Trees without links -/

/-- A name that a system allows in a directory. -/
structure FileTree.IsEntryName (name : List Char) : Prop extends Path.IsName name where
  noNul : '\x00' ∉ name
  short : (Text.Utf8.encode name).length ≤ FileSystem.longestName

instance (name : List Char) : Decidable (FileTree.IsEntryName name) :=
  decidable_of_iff
    (('/' ∉ name ∧ Path.component? name = some (.name name)) ∧ '\x00' ∉ name ∧
      (Text.Utf8.encode name).length ≤ FileSystem.longestName)
    ⟨fun ⟨⟨whole, speaks⟩, noNul, short⟩ => ⟨⟨whole, speaks⟩, noNul, short⟩,
      fun ⟨⟨whole, speaks⟩, noNul, short⟩ => ⟨⟨whole, speaks⟩, noNul, short⟩⟩

namespace FileTree

/-- A tree without links, whose directories have each name once. -/
inductive Plain : FileTree → Prop where
  | file (bytes : List UInt8) (modified : Int) : Plain (.file bytes modified)
  | dir {modified : Int} {entries : List (List Char × FileTree)}
      (once : (entries.map Prod.fst).Nodup) (names : ∀ entry ∈ entries, IsEntryName entry.1)
      (trees : ∀ entry ∈ entries, Plain entry.2) : Plain (.dir modified entries)

theorem mem_of_entryOf {name : List Char} {tree : FileTree} {entries : List (List Char × FileTree)}
    (found : entryOf name entries = some tree) : (name, tree) ∈ entries := by
  induction entries with
  | nil => cases found
  | cons entry rest ih =>
    rw [entryOf, List.lookup_cons] at found
    cases same : name == entry.1 with
    | true =>
      rw [same] at found
      cases found
      rw [beq_iff_eq.mp same]
      exact List.mem_cons_self
    | false =>
      rw [same] at found
      exact List.mem_cons_of_mem _ (ih found)

theorem entryOf_of_mem {name : List Char} {tree : FileTree} {entries : List (List Char × FileTree)}
    (once : (entries.map Prod.fst).Nodup) (member : (name, tree) ∈ entries) :
    entryOf name entries = some tree := by
  induction entries with
  | nil => cases member
  | cons entry rest ih =>
    obtain ⟨other, others⟩ := List.nodup_cons.mp once
    rw [entryOf, List.lookup_cons]
    rcases List.mem_cons.mp member with rfl | later
    · rw [beq_self_eq_true]
    · have ne : name ≠ entry.1 := by
        intro same
        exact other (List.mem_map.mpr ⟨_, later, same⟩)
      rw [beq_eq_false_iff_ne.mpr ne]
      exact ih others later

theorem at?_append (tree : FileTree) (front names : List (List Char)) :
    tree.at? (front ++ names) = (tree.at? front).bind (·.at? names) := by
  induction front generalizing tree with
  | nil => cases tree <;> rfl
  | cons name front ih =>
    cases tree with
    | file bytes modified => rfl
    | link target => rfl
    | dir modified entries =>
      rw [List.cons_append, at?, at?]
      cases entryOf name entries with
      | none => rfl
      | some inner => exact ih inner

theorem at?_nil (tree : FileTree) : tree.at? [] = some tree := by
  cases tree <;> rfl

theorem at?_singleton_eq_some_iff {tree inner : FileTree} {name : List Char} :
    tree.at? [name] = some inner ↔
      ∃ modified entries, tree = .dir modified entries ∧ entryOf name entries = some inner := by
  cases tree with
  | file bytes modified => simp [at?]
  | link target => simp [at?]
  | dir modified entries =>
    rw [at?]
    cases found : entryOf name entries with
    | none => simp [found]
    | some other => simp [found, at?_nil]

theorem at?_concat_eq_some_iff {tree inner : FileTree} {place : List (List Char)}
    {name : List Char} :
    tree.at? (place ++ [name]) = some inner ↔
      ∃ modified entries, tree.at? place = some (.dir modified entries) ∧
        entryOf name entries = some inner := by
  rw [at?_append, Option.bind_eq_some_iff]
  constructor
  · rintro ⟨outer, stands, found⟩
    obtain ⟨modified, entries, rfl, entry⟩ := at?_singleton_eq_some_iff.mp found
    exact ⟨modified, entries, stands, entry⟩
  · rintro ⟨modified, entries, stands, entry⟩
    exact ⟨_, stands, at?_singleton_eq_some_iff.mpr ⟨modified, entries, rfl, entry⟩⟩

/-- What stands somewhere in a plain tree is plain, and plain names lead there. -/
theorem Plain.at? {tree inner : FileTree} (plain : tree.Plain) {place : List (List Char)}
    (found : tree.at? place = some inner) : inner.Plain ∧ ∀ name ∈ place, IsEntryName name := by
  induction place generalizing tree with
  | nil =>
    rw [at?_nil] at found
    cases found
    exact ⟨plain, by simp⟩
  | cons name place ih =>
    cases plain with
    | file bytes modified => cases found
    | dir once names trees =>
      rename_i modified entries
      rw [FileTree.at?] at found
      cases entry : entryOf name entries with
      | none => simp [entry] at found
      | some tree =>
        rw [entry] at found
        have member := mem_of_entryOf entry
        obtain ⟨plainInner, proper⟩ := ih (trees _ member) found
        refine ⟨plainInner, ?_⟩
        intro other inPlace
        rcases List.mem_cons.mp inPlace with rfl | later
        · exact names _ member
        · exact proper other later

end FileTree

/-! ## Walking -/

namespace FileSystem

/-- The place that a component leads to, both places given by the last name first. -/
def follow (place : List (List Char)) : Path.Component → List (List Char)
  | .root | .current => place
  | .parent => place.tail
  | .name name => name :: place

/-- Parts of a path lead from one place to another one, through directories. -/
inductive Leads (fs : FileSystem) :
    List (List Char) → List (List Char) → List (List Char) → Prop where
  | done (place : List (List Char)) : Leads fs place [] place
  | stay {place rest goal : List (List Char)} {part : List Char} {modified : Int}
      {entries : List (List Char × FileTree)}
      (dir : fs.root.at? place.reverse = some (.dir modified entries))
      (silent : Path.component? part = none) (next : Leads fs place rest goal) :
      Leads fs place (part :: rest) goal
  | up {place rest goal : List (List Char)} {part : List Char} {modified : Int}
      {entries : List (List Char × FileTree)}
      (dir : fs.root.at? place.reverse = some (.dir modified entries))
      (parent : Path.component? part = some .parent) (next : Leads fs place.tail rest goal) :
      Leads fs place (part :: rest) goal
  | down {place rest goal : List (List Char)} {part : List Char} {modified : Int}
      {entries : List (List Char × FileTree)} {tree : FileTree}
      (dir : fs.root.at? place.reverse = some (.dir modified entries))
      (speaks : Path.component? part = some (.name part))
      (entry : FileTree.entryOf part entries = some tree)
      (next : Leads fs (part :: place) rest goal) : Leads fs place (part :: rest) goal

variable {fs : FileSystem} {place goal : List (List Char)}

/-- Where a path leads is up to its components alone. -/
theorem Leads.eq_foldl {parts : List (List Char)} (leads : Leads fs place parts goal) :
    goal = (parts.filterMap Path.component?).foldl follow place := by
  induction leads with
  | done place => rfl
  | stay dir silent next ih => rw [List.filterMap_cons, silent, ih]
  | up dir parent next ih => rw [List.filterMap_cons, parent, ih, List.foldl_cons, follow]
  | down dir speaks entry next ih => rw [List.filterMap_cons, speaks, ih, List.foldl_cons, follow]

theorem leads_append_iff {front parts : List (List Char)} :
    Leads fs place (front ++ parts) goal ↔
      ∃ between, Leads fs place front between ∧ Leads fs between parts goal := by
  constructor
  · intro leads
    induction front generalizing place with
    | nil => exact ⟨place, .done place, leads⟩
    | cons part front ih =>
      cases leads with
      | stay dir silent next =>
        obtain ⟨between, first, second⟩ := ih next
        exact ⟨between, .stay dir silent first, second⟩
      | up dir parent next =>
        obtain ⟨between, first, second⟩ := ih next
        exact ⟨between, .up dir parent first, second⟩
      | down dir speaks entry next =>
        obtain ⟨between, first, second⟩ := ih next
        exact ⟨between, .down dir speaks entry first, second⟩
  · rintro ⟨between, first, second⟩
    induction first with
    | done place => exact second
    | stay dir silent next ih => exact .stay dir silent (ih second)
    | up dir parent next ih => exact .up dir parent (ih second)
    | down dir speaks entry next ih => exact .down dir speaks entry (ih second)

theorem leads_of_silent {parts : List (List Char)} {modified : Int}
    {entries : List (List Char × FileTree)}
    (dir : fs.root.at? place.reverse = some (.dir modified entries))
    (silent : ∀ part ∈ parts, Path.component? part = none) : Leads fs place parts place := by
  induction parts with
  | nil => exact .done place
  | cons part rest ih =>
    exact .stay dir (silent part List.mem_cons_self)
      (ih fun other member => silent other (List.mem_cons_of_mem _ member))

/-- A part as it is walked. -/
def stepOf (part : List Char) : List Char :=
  if part.isEmpty then ['.'] else part

theorem stepOf_of_silent {part : List Char} (silent : Path.component? part = none) :
    stepOf part = ['.'] := by
  unfold Path.component? at silent
  unfold stepOf
  grind

/-- What one step of a walk does, by the component that its part stands for. -/
theorem walk_cons_eq_ok_iff (plain : fs.root.Plain) (part : List Char)
    (rest : List (List Char)) (bound links : Nat) :
    fs.walk (bound + 1) links place (stepOf part :: rest) = .ok goal ↔
      ∃ modified entries, fs.root.at? place.reverse = some (.dir modified entries) ∧
        match Path.component? part with
        | none => fs.walk bound links place rest = .ok goal
        | some .parent => fs.walk bound links place.tail rest = .ok goal
        | some _ => (∃ tree, FileTree.entryOf part entries = some tree) ∧
            fs.walk bound links (part :: place) rest = .ok goal := by
  rw [walk]
  cases stands : fs.root.at? place.reverse with
  | none => simp
  | some tree =>
    cases tree with
    | file bytes modified => simp
    | link target => simp
    | dir modified entries =>
      have plainDir := (plain.at? stands).1
      rcases Path.component?_cases part with silent | parent | speaks
      · simp [silent, stepOf_of_silent silent]
      · have dots : stepOf part = ['.', '.'] := by
          rw [Path.eq_of_parent parent]
          rfl
        simp [parent, dots]
      · obtain ⟨-, more, noDot, noDots⟩ := Path.of_name speaks
        have step : stepOf part = part := by simp [stepOf, more]
        simp only [speaks, step, beq_iff_eq, noDot, noDots, if_false]
        cases entry : FileTree.entryOf part entries with
        | none =>
          by_cases long : longestName < (Text.Utf8.encode part).length <;> simp [entry, long]
        | some inner =>
          have member := FileTree.mem_of_entryOf entry
          cases plainDir with
          | dir once names trees =>
            have short := (names _ member).short
            have plainInner := trees _ member
            cases plainInner with
            | file bytes modified => simp [entry, Nat.not_lt.mpr short]
            | dir once names trees => simp [entry, Nat.not_lt.mpr short]

theorem walk_eq_ok_iff (plain : fs.root.Plain) {parts : List (List Char)} {bound : Nat}
    (enough : parts.length ≤ bound) (links : Nat) :
    fs.walk bound links place (parts.map stepOf) = .ok goal ↔ Leads fs place parts goal := by
  induction parts generalizing bound place with
  | nil =>
    rw [List.map_nil, walk]
    constructor
    · intro same
      cases same
      exact .done _
    · intro leads
      cases leads
      rfl
  | cons part rest ih =>
    obtain ⟨bound, rfl⟩ : ∃ less, bound = less + 1 := ⟨bound - 1, by simp at enough; omega⟩
    have enoughLeft : rest.length ≤ bound := by simpa using enough
    rw [List.map_cons, walk_cons_eq_ok_iff plain]
    constructor
    · rintro ⟨modified, entries, dir, next⟩
      rcases Path.component?_cases part with silent | parent | speaks
      · rw [silent] at next
        exact .stay dir silent ((ih enoughLeft).mp next)
      · rw [parent] at next
        exact .up dir parent ((ih enoughLeft).mp next)
      · rw [speaks] at next
        obtain ⟨⟨tree, entry⟩, next⟩ := next
        exact .down dir speaks entry ((ih enoughLeft).mp next)
    · intro leads
      cases leads with
      | stay dir silent next =>
        refine ⟨_, _, dir, ?_⟩
        rw [silent]
        exact (ih enoughLeft).mpr next
      | up dir parent next =>
        refine ⟨_, _, dir, ?_⟩
        rw [parent]
        exact (ih enoughLeft).mpr next
      | down dir speaks entry next =>
        refine ⟨_, _, dir, ?_⟩
        rw [speaks]
        exact ⟨⟨_, entry⟩, (ih enoughLeft).mpr next⟩

/-! ## Paths from the root -/

/-- A path that the system takes: it is not too long and has no character that no name
    can have. -/
structure Usable (path : List Char) : Prop where
  noNul : '\x00' ∉ path
  short : (Text.Utf8.encode path).length ≤ longestPath

theorem noNul_rooted_iff {ps : List (List Char)} :
    '\x00' ∉ Path.rooted ps ↔ ∀ part ∈ ps, '\x00' ∉ part := by
  have joined : '\x00' ∉ Path.join ps ↔ ∀ part ∈ ps, '\x00' ∉ part := by
    induction ps with
    | nil => simp [Path.join]
    | cons part rest ih =>
      cases rest with
      | nil => simp [Path.join]
      | cons next rest =>
        rw [Path.join_cons (by simp), List.forall_mem_cons, ← ih]
        simp
  rw [← joined]
  simp [Path.rooted]

theorem Usable.of_sublist {ps qs : List (List Char)} (usable : Usable (Path.rooted qs))
    (sub : ps.Sublist qs) : Usable (Path.rooted ps) where
  noNul := noNul_rooted_iff.mpr fun part member =>
    noNul_rooted_iff.mp usable.noNul part (sub.subset member)
  short := Nat.le_trans (Path.length_encode_rooted_le sub) usable.short

theorem length_parts_le (path : List Char) : (Path.parts path).length ≤ path.length + 1 := by
  induction path with
  | nil => simp
  | cons c cs ih =>
    by_cases slash : c = '/'
    · subst slash
      simpa using ih
    · obtain ⟨first, rest, cut, cutMore⟩ := Path.parts_cons slash cs
      rw [cut] at ih
      rw [cutMore]
      simp only [List.length_cons] at *
      omega

theorem leads_silent_iff {part : List Char} (silent : Path.component? part = none)
    {rest : List (List Char)} :
    Leads fs place (part :: rest) goal ↔
      (∃ modified entries, fs.root.at? place.reverse = some (.dir modified entries)) ∧
        Leads fs place rest goal := by
  constructor
  · intro leads
    cases leads with
    | stay dir silent next => exact ⟨⟨_, _, dir⟩, next⟩
    | up dir parent next => cases silent.symm.trans parent
    | down dir speaks entry next => cases silent.symm.trans speaks
  · rintro ⟨⟨modified, entries, dir⟩, next⟩
    exact .stay dir silent next

/-- The root has to be a directory, even if no name is looked up in it. -/
theorem leads_parts_rooted_iff {ps : List (List Char)} (whole : Path.Whole ps) :
    Leads fs [] (Path.parts (Path.rooted ps)) goal ↔
      (∃ modified entries, fs.root = .dir modified entries) ∧ Leads fs [] ps goal := by
  have top : fs.root.at? ([] : List (List Char)).reverse = some fs.root := FileTree.at?_nil fs.root
  have silent : Path.component? [] = none := rfl
  rw [Path.parts_rooted whole, leads_silent_iff silent, top]
  cases ps with
  | nil =>
    rw [if_pos rfl, leads_silent_iff silent, top]
    simp
  | cons part rest =>
    rw [if_neg (by simp)]
    simp

theorem locate_rooted_eq_ok_iff (plain : fs.root.Plain) {ps : List (List Char)}
    (whole : Path.Whole ps) :
    fs.locate (Path.rooted ps) = .ok goal ↔
      Usable (Path.rooted ps) ∧ (∃ modified entries, fs.root = .dir modified entries) ∧
        Leads fs [] ps goal := by
  have enough : (Path.parts (Path.rooted ps)).length ≤ stepLimit (Path.rooted ps) := by
    have bound := length_parts_le (Path.rooted ps)
    unfold stepLimit
    omega
  have steps_eq : steps (Path.rooted ps) = (Path.parts (Path.rooted ps)).map stepOf := rfl
  rw [← leads_parts_rooted_iff whole, ← walk_eq_ok_iff plain enough linkLimit, ← steps_eq, locate,
    Path.isAbsolute_rooted]
  by_cases nul : '\x00' ∈ Path.rooted ps
  · rw [if_pos (by simpa using nul)]
    simp only [reduceCtorEq, false_iff, not_and]
    exact fun usable => absurd nul usable.noNul
  rw [if_neg (by simpa using nul), if_neg (by simp [Path.rooted])]
  by_cases long : longestPath < (Text.Utf8.encode (Path.rooted ps)).length
  · rw [if_pos long]
    simp only [reduceCtorEq, false_iff, not_and]
    exact fun usable => absurd usable.short (Nat.not_le.mpr long)
  · rw [if_neg long]
    have usable : Usable (Path.rooted ps) := ⟨nul, Nat.not_lt.mp long⟩
    exact ⟨fun walks => ⟨usable, walks⟩, fun both => both.2⟩

theorem find_eq_ok_iff {path : List Char} {tree : FileTree} :
    fs.find path = .ok tree ↔
      ∃ goal, fs.locate path = .ok goal ∧ fs.root.at? goal.reverse = some tree := by
  unfold find
  cases located : fs.locate path with
  | error fault => simp [bind, Except.bind]
  | ok goal =>
    cases stands : fs.root.at? goal.reverse with
    | none => simp [bind, Except.bind, stands]
    | some other => simp [bind, Except.bind, stands]

theorem find_rooted_eq_ok_iff (plain : fs.root.Plain) {ps : List (List Char)}
    (whole : Path.Whole ps) {tree : FileTree} :
    fs.find (Path.rooted ps) = .ok tree ↔
      Usable (Path.rooted ps) ∧ (∃ modified entries, fs.root = .dir modified entries) ∧
        ∃ goal, Leads fs [] ps goal ∧ fs.root.at? goal.reverse = some tree := by
  simp only [find_eq_ok_iff, locate_rooted_eq_ok_iff plain whole]
  constructor
  · rintro ⟨goal, ⟨usable, top, leads⟩, stands⟩
    exact ⟨usable, top, goal, leads, stands⟩
  · rintro ⟨usable, top, goal, leads, stands⟩
    exact ⟨goal, ⟨usable, top, leads⟩, stands⟩

/-! ## Paths without double dots -/

theorem foldl_follow_names (names : List (List Char)) :
    (names.map Path.Component.name).foldl follow place = names.reverse ++ place := by
  induction names generalizing place with
  | nil => rfl
  | cons name names ih => simp [follow, ih]

theorem dir_of_at?_append {tree inner : FileTree} {front names : List (List Char)}
    (found : tree.at? (front ++ names) = some inner) (more : names ≠ []) :
    ∃ modified entries, tree.at? front = some (.dir modified entries) := by
  rw [FileTree.at?_append] at found
  cases stands : tree.at? front with
  | none => simp [stands] at found
  | some outer =>
    cases names with
    | nil => exact absurd rfl more
    | cons name names =>
      cases outer with
      | dir modified entries => exact ⟨modified, entries, rfl⟩
      | file bytes modified => simp [stands, FileTree.at?] at found
      | link target => simp [stands, FileTree.at?] at found

theorem dir_of_at? {tree inner : FileTree} {names : List (List Char)}
    (found : tree.at? names = some inner) (more : names ≠ []) :
    ∃ modified entries, tree = .dir modified entries := by
  rw [← List.nil_append names] at found
  obtain ⟨modified, entries, dir⟩ := dir_of_at?_append found more
  exact ⟨modified, entries, by simpa [FileTree.at?_nil] using dir⟩

section

variable {ps names : List (List Char)}

end

end FileSystem

end ApiWorkflow
