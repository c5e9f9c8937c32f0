import ApiWorkflow.File.Path
import ApiWorkflow.Text.Utf8
import Mathlib.Data.List.Basic
import Mathlib.Data.List.Induction
import Mathlib.Data.List.TakeWhile

/-! # The parts of a path

A path is its parts with slashes between them. A path from the root is given by the
parts behind its first slash: its components, its parent and the paths below it are
read off these parts.
-/

namespace ApiWorkflow.Path

/-! ## Cutting and joining -/

@[simp]
theorem parts_nil : parts [] = [[]] :=
  rfl

@[simp]
theorem parts_slash (cs : List Char) : parts ('/' :: cs) = [] :: parts cs :=
  rfl

theorem parts_ne_nil (path : List Char) : parts path ≠ [] := by
  unfold parts
  fun_cases Text.cutAt '/' path <;> simp

theorem parts_cons {c : Char} (noSlash : c ≠ '/') (cs : List Char) :
    ∃ first rest, parts cs = first :: rest ∧ parts (c :: cs) = (c :: first) :: rest := by
  cases cut : parts cs with
  | nil => exact absurd cut (parts_ne_nil cs)
  | cons first rest =>
    refine ⟨first, rest, rfl, ?_⟩
    rw [parts] at cut
    simp only [parts, Text.cutAt, if_neg noSlash, cut]

theorem slash_not_mem_of_mem_parts {path part : List Char} (member : part ∈ parts path) :
    '/' ∉ part := by
  induction path generalizing part with
  | nil => simp_all
  | cons c cs ih =>
    by_cases slash : c = '/'
    · subst slash
      rcases List.mem_cons.mp member with rfl | later
      · exact List.not_mem_nil
      · exact ih later
    · obtain ⟨first, rest, cut, cutMore⟩ := parts_cons slash cs
      rw [cutMore] at member
      rcases List.mem_cons.mp member with rfl | later
      · have inFirst := ih (cut ▸ List.mem_cons_self)
        simp [inFirst, Ne.symm slash]
      · exact ih (cut ▸ List.mem_cons_of_mem _ later)

theorem join_cons {part : List Char} {rest : List (List Char)} (more : rest ≠ []) :
    join (part :: rest) = part ++ '/' :: join rest := by
  cases rest with
  | nil => exact absurd rfl more
  | cons next rest => rfl

theorem join_parts (path : List Char) : join (parts path) = path := by
  induction path with
  | nil => rfl
  | cons c cs ih =>
    by_cases slash : c = '/'
    · subst slash
      rw [parts_slash, join_cons (parts_ne_nil cs), ih, List.nil_append]
    · obtain ⟨first, rest, cut, cutMore⟩ := parts_cons slash cs
      rw [cut] at ih
      rw [cutMore]
      cases rest with
      | nil => exact congrArg (c :: ·) ih
      | cons next rest => exact congrArg (c :: ·) ih

theorem parts_of_noSlash {part : List Char} (whole : '/' ∉ part) : parts part = [part] := by
  induction part with
  | nil => rfl
  | cons c cs ih =>
    simp only [List.mem_cons, not_or] at whole
    obtain ⟨first, rest, cut, cutMore⟩ := parts_cons (Ne.symm whole.1) cs
    rw [ih whole.2] at cut
    cases cut
    exact cutMore

theorem parts_append_slash {part : List Char} (whole : '/' ∉ part) (cs : List Char) :
    parts (part ++ '/' :: cs) = part :: parts cs := by
  induction part with
  | nil => rfl
  | cons c part ih =>
    simp only [List.mem_cons, not_or] at whole
    obtain ⟨first, rest, cut, cutMore⟩ := parts_cons (Ne.symm whole.1) (part ++ '/' :: cs)
    rw [ih whole.2] at cut
    cases cut
    exact cutMore

/-- No part has a slash in it. -/
def Whole (ps : List (List Char)) : Prop :=
  ∀ part ∈ ps, '/' ∉ part

theorem Whole.front {front behind : List (List Char)} (whole : Whole (front ++ behind)) :
    Whole front := fun part member => whole part (List.mem_append_left _ member)

theorem parts_join {ps : List (List Char)} (more : ps ≠ []) (whole : Whole ps) :
    parts (join ps) = ps := by
  induction ps with
  | nil => exact absurd rfl more
  | cons part rest ih =>
    cases rest with
    | nil => exact parts_of_noSlash (whole part List.mem_cons_self)
    | cons next rest =>
      have others : Whole (next :: rest) := fun other member =>
        whole other (List.mem_cons_of_mem _ member)
      rw [join_cons (by simp), parts_append_slash (whole part List.mem_cons_self),
        ih (by simp) others]

theorem join_append_singleton {ps : List (List Char)} (more : ps ≠ []) (last : List Char) :
    join (ps ++ [last]) = join ps ++ '/' :: last := by
  induction ps with
  | nil => exact absurd rfl more
  | cons part rest ih =>
    cases rest with
    | nil => rfl
    | cons next rest =>
      have longer : next :: rest ++ [last] ≠ [] := by simp
      have whole : join (part :: next :: rest) = part ++ '/' :: join (next :: rest) := rfl
      rw [List.cons_append, join_cons longer, ih (by simp), whole, List.append_assoc,
        List.cons_append]

/-! ## Paths from the root -/

/-- The path from the root with some parts behind its first slash. -/
def rooted (ps : List (List Char)) : List Char :=
  '/' :: join ps

theorem exists_rooted {path : List Char} (absolute : isAbsolute path = true) :
    ∃ ps, Whole ps ∧ path = rooted ps := by
  cases path with
  | nil => cases absolute
  | cons c cs =>
    have slash : c = '/' := by simpa [isAbsolute] using absolute
    refine ⟨parts cs, fun part member => slash_not_mem_of_mem_parts member, ?_⟩
    rw [rooted, join_parts, slash]

theorem parts_rooted {ps : List (List Char)} (whole : Whole ps) :
    parts (rooted ps) = [] :: if ps = [] then [[]] else ps := by
  rw [rooted, parts_slash]
  split
  · rename_i bare
    rw [bare]
    rfl
  · rename_i more
    rw [parts_join more whole]

theorem isAbsolute_rooted (ps : List (List Char)) : isAbsolute (rooted ps) = true :=
  rfl

theorem components_rooted {ps : List (List Char)} (whole : Whole ps) :
    components (rooted ps) = .root :: ps.filterMap component? := by
  have silent : component? [] = none := rfl
  rw [components, parts_rooted whole, isAbsolute_rooted]
  cases ps with
  | nil => simp [silent]
  | cons part rest => simp [silent]

theorem eq_of_parent {part : List Char} (parent : component? part = some .parent) :
    part = ['.', '.'] := by
  unfold component? at parent
  grind

theorem of_name {part name : List Char} (speaks : component? part = some (.name name)) :
    name = part ∧ part ≠ [] ∧ part ≠ ['.'] ∧ part ≠ ['.', '.'] := by
  unfold component? at speaks
  grind

theorem component?_cases (part : List Char) :
    component? part = none ∨ component? part = some .parent ∨
      component? part = some (.name part) := by
  unfold component?
  grind

/-! ## Parents -/

/-- The parts up to the last one that says something. -/
def upToLast (ps : List (List Char)) : List (List Char) :=
  (dropSilent ps.reverse).reverse

theorem upToLast_append_singleton (ps : List (List Char)) (part : List Char) :
    upToLast (ps ++ [part]) = if component? part = none then upToLast ps else ps ++ [part] := by
  rw [upToLast, List.reverse_append, List.reverse_singleton, List.singleton_append, dropSilent]
  cases speaks : component? part with
  | none => simp [upToLast]
  | some component => simp

/-- What is left out says nothing, and the last part that is left says something. -/
theorem upToLast_spec (ps : List (List Char)) :
    (∃ silent, ps = upToLast ps ++ silent ∧ ∀ part ∈ silent, component? part = none) ∧
      ∀ front last, upToLast ps = front ++ [last] → component? last ≠ none := by
  induction ps using List.reverseRecOn with
  | nil => exact ⟨⟨[], rfl, by simp⟩, by simp [upToLast, dropSilent]⟩
  | append_singleton ps part ih =>
    obtain ⟨⟨silent, split, quiet⟩, ends⟩ := ih
    rw [upToLast_append_singleton]
    split
    · rename_i last
      refine ⟨⟨silent ++ [part], ?_, ?_⟩, ends⟩
      · rw [← List.append_assoc, ← split]
      · intro other member
        rcases List.mem_append.mp member with before | here
        · exact quiet other before
        · rwa [List.mem_singleton.mp here]
    · rename_i speaks
      refine ⟨⟨[], (List.append_nil _).symm, by simp⟩, ?_⟩
      intro front last same
      obtain ⟨-, rfl⟩ := List.append_singleton_inj.mp same
      exact speaks

theorem filterMap_upToLast (ps : List (List Char)) :
    (upToLast ps).filterMap component? = ps.filterMap component? := by
  obtain ⟨silent, split, quiet⟩ := (upToLast_spec ps).1
  conv => rhs; rw [split]
  rw [List.filterMap_append, List.filterMap_eq_nil_iff.mpr quiet, List.append_nil]

theorem Whole.upToLast {ps : List (List Char)} (whole : Whole ps) : Whole (upToLast ps) := by
  obtain ⟨silent, split, -⟩ := (upToLast_spec ps).1
  intro part member
  exact whole part (split ▸ List.mem_append_left _ member)

theorem upToLast_cons_nil (ps : List (List Char)) :
    Path.upToLast ([] :: ps) = if Path.upToLast ps = [] then [] else [] :: Path.upToLast ps := by
  induction ps using List.reverseRecOn with
  | nil => rfl
  | append_singleton ps part ih =>
    rw [← List.cons_append, upToLast_append_singleton, upToLast_append_singleton, ih]
    split <;> simp

theorem solid_rooted {ps : List (List Char)} (whole : Whole ps) :
    solid (rooted ps) = if Path.upToLast ps = [] then [] else [] :: Path.upToLast ps := by
  have kept : Path.upToLast (parts (rooted ps)) =
      if Path.upToLast ps = [] then [] else [] :: Path.upToLast ps := by
    rw [parts_rooted whole, upToLast_cons_nil]
    cases ps with
    | nil => rfl
    | cons part rest => rfl
  rw [Path.upToLast] at kept
  simp only [solid, kept, isAbsolute_rooted]
  split
  · rename_i bare
    simp [bare]
  · rfl

theorem parent?_rooted_nil {ps : List (List Char)} (whole : Whole ps)
    (bare : Path.upToLast ps = []) : parent? (rooted ps) = none := by
  simp only [parent?, solid_rooted whole, bare, if_true]

theorem parent?_rooted {ps front : List (List Char)} {last : List Char} (whole : Whole ps)
    (split : Path.upToLast ps = front ++ [last]) :
    parent? (rooted ps) = some (rooted (Path.upToLast front)) := by
  have wholeFront : Whole front := Whole.front (split ▸ whole.upToLast)
  have ends : solid (rooted ps) = [] :: (front ++ [last]) := by
    rw [solid_rooted whole, split, if_neg (by simp)]
  have dropped : ([] :: (front ++ [last])).dropLast = [] :: front := by
    rw [← List.cons_append, List.dropLast_concat]
  simp only [parent?, ends, dropped, isAbsolute_rooted, Bool.and_true]
  cases front with
  | nil => rfl
  | cons part rest =>
    have next : solid (join ([] :: part :: rest)) = solid (rooted (part :: rest)) := rfl
    rw [next, solid_rooted wholeFront]
    split
    · rename_i bare
      rw [bare]
      rfl
    · rename_i more
      rw [if_neg (by simp), join_cons more, List.nil_append, rooted]

/-- Parts of a path without slashes at its end: the last part says something. -/
structure Tidy (ps : List (List Char)) : Prop where
  whole : Whole ps
  ends : ∀ front last, ps = front ++ [last] → component? last ≠ none

theorem tidy_upToLast {ps : List (List Char)} (whole : Whole ps) : Tidy (upToLast ps) :=
  ⟨whole.upToLast, (upToLast_spec ps).2⟩

theorem Tidy.upToLast_eq {ps : List (List Char)} (tidy : Tidy ps) : upToLast ps = ps := by
  induction ps using List.reverseRecOn with
  | nil => rfl
  | append_singleton front last ih =>
    rw [upToLast_append_singleton, if_neg (tidy.ends front last rfl)]

theorem Tidy.parent?_eq {front : List (List Char)} {last : List Char}
    (tidy : Tidy (front ++ [last])) :
    parent? (rooted (front ++ [last])) = some (rooted (upToLast front)) :=
  parent?_rooted tidy.whole tidy.upToLast_eq

theorem Tidy.front {front : List (List Char)} {last : List Char} (tidy : Tidy (front ++ [last])) :
    Tidy (upToLast front) :=
  tidy_upToLast tidy.whole.front

/-- A path from the root is the root, or it is one component longer than its parent. -/
theorem parent?_of_isAbsolute {path : List Char} (absolute : isAbsolute path = true) :
    (parent? path = none ∧ components path = [.root]) ∨
      ∃ ps last, Tidy ps ∧ parent? path = some (rooted ps) ∧
        components path = components (rooted ps) ++ [last] := by
  obtain ⟨ps, whole, rfl⟩ := exists_rooted absolute
  have same := filterMap_upToLast ps
  rw [components_rooted whole, ← same]
  cases split : upToLast ps using List.reverseRecOn with
  | nil => exact .inl ⟨parent?_rooted_nil whole split, rfl⟩
  | append_singleton front last =>
    have tidy : Tidy (front ++ [last]) := split ▸ tidy_upToLast whole
    obtain ⟨component, speaks⟩ := Option.ne_none_iff_exists'.mp (tidy.ends front last rfl)
    refine .inr ⟨upToLast front, component, tidy.front, parent?_rooted whole split, ?_⟩
    rw [components_rooted tidy.front.whole, filterMap_upToLast, List.filterMap_append]
    simp [speaks]

/-! ## Paths below a directory -/

/-- A name of a file: a part that stands for itself. -/
structure IsName (name : List Char) : Prop where
  whole : '/' ∉ name
  speaks : component? name = some (.name name)

theorem isAbsolute_of_isName {name : List Char} (isName : IsName name) :
    isAbsolute name = false := by
  cases name with
  | nil => rfl
  | cons c cs =>
    have noSlash : c ≠ '/' := by
      rintro rfl
      exact isName.whole List.mem_cons_self
    simp [isAbsolute, noSlash]

theorem Tidy.append {ps : List (List Char)} (tidy : Tidy ps) {name : List Char}
    (isName : IsName name) : Tidy (ps ++ [name]) where
  whole := by
    intro part member
    rcases List.mem_append.mp member with before | last
    · exact tidy.whole part before
    · rw [List.mem_singleton.mp last]
      exact isName.whole
  ends := by
    intro front last same
    obtain ⟨-, rfl⟩ := List.append_singleton_inj.mp same
    rw [isName.speaks]
    exact nofun

theorem rooted_append_singleton (ps : List (List Char)) (last : List Char) :
    ∃ front, rooted (ps ++ [last]) = front ++ last := by
  cases ps with
  | nil => exact ⟨['/'], rfl⟩
  | cons part rest =>
    refine ⟨rooted (part :: rest) ++ ['/'], ?_⟩
    rw [rooted, join_append_singleton (by simp), List.append_assoc]
    rfl

theorem Tidy.append_eq {ps : List (List Char)} (tidy : Tidy ps) {name : List Char}
    (isName : IsName name) : Path.append (rooted ps) name = rooted (ps ++ [name]) := by
  rw [Path.append, isAbsolute_of_isName isName, if_neg (by simp)]
  cases ps using List.reverseRecOn with
  | nil => rfl
  | append_singleton ps last =>
    have more : last ≠ [] := by
      rintro rfl
      exact tidy.ends ps [] rfl rfl
    have noSlash : (rooted (ps ++ [last])).getLast? ≠ some '/' := by
      obtain ⟨front, split⟩ := rooted_append_singleton ps last
      rw [split, List.getLast?_append_of_ne_nil _ more]
      intro slash
      exact tidy.whole last (by simp) (List.mem_of_getLast? slash)
    rw [if_neg (by simpa [rooted] using noSlash), rooted, rooted,
      join_append_singleton (by simp) name]
    rfl

/-- A directory with names that lead on from there. -/
def below (dir : List Char) (names : List (List Char)) : List Char :=
  names.foldl Path.append dir

theorem Tidy.below_eq {ps : List (List Char)} (tidy : Tidy ps) {names : List (List Char)}
    (areNames : ∀ name ∈ names, IsName name) :
    Tidy (ps ++ names) ∧ below (rooted ps) names = rooted (ps ++ names) := by
  induction names generalizing ps with
  | nil =>
    rw [List.append_nil]
    exact ⟨tidy, rfl⟩
  | cons name names ih =>
    have isName := areNames name List.mem_cons_self
    have next := ih (tidy.append isName) fun other member =>
      areNames other (List.mem_cons_of_mem _ member)
    rw [List.append_assoc, List.singleton_append] at next
    rw [below, List.foldl_cons, tidy.append_eq isName]
    exact next

/-- The path leads from the root through names alone. -/
def Spells (path : List Char) (place : List (List Char)) : Prop :=
  components path = .root :: place.map .name

theorem spells_rooted_iff {ps place : List (List Char)} (whole : Whole ps) :
    Spells (rooted ps) place ↔ ps.filterMap component? = place.map .name := by
  rw [Spells, components_rooted whole, List.cons.injEq]
  exact and_iff_right rfl

theorem Spells.unique {path : List Char} {place other : List (List Char)}
    (spells : Spells path place) (spellsOther : Spells path other) : place = other := by
  have same := spells.symm.trans spellsOther
  rw [List.cons.injEq] at same
  exact List.map_injective_iff.mpr (fun _ _ => Component.name.inj) same.2

theorem isAbsolute_of_spells {path : List Char} {place : List (List Char)}
    (spells : Spells path place) : isAbsolute path = true := by
  have noRoot : ∀ part, component? part ≠ some .root := by
    intro part root
    rcases component?_cases part with silent | parent | speaks
    · cases silent.symm.trans root
    · cases parent.symm.trans root
    · cases speaks.symm.trans root
  cases absolute : isAbsolute path with
  | true => rfl
  | false =>
    have root : .root ∈ components path := by
      rw [spells]
      exact List.mem_cons_self
    simp only [components, absolute, Bool.false_eq_true, if_false, List.mem_append] at root
    rcases root with start | later
    · split at start <;> simp at start
    · obtain ⟨part, -, root⟩ := List.mem_filterMap.mp later
      exact absurd root (noRoot part)

theorem filterMap_names {names : List (List Char)} (areNames : ∀ name ∈ names, IsName name) :
    names.filterMap component? = names.map .name := by
  induction names with
  | nil => rfl
  | cons name names ih =>
    rw [List.filterMap_cons, (areNames name List.mem_cons_self).speaks, List.map_cons,
      ih fun other member => areNames other (List.mem_cons_of_mem _ member)]

theorem Tidy.components_append {ps names : List (List Char)} (tidy : Tidy ps)
    (areNames : ∀ name ∈ names, IsName name) :
    components (rooted (ps ++ names)) = components (rooted ps) ++ names.map .name := by
  rw [components_rooted (tidy.below_eq areNames).1.whole, components_rooted tidy.whole,
    List.filterMap_append, filterMap_names areNames, List.cons_append]

theorem Tidy.components_append_singleton {ps : List (List Char)} (tidy : Tidy ps)
    {name : List Char} (isName : IsName name) :
    components (rooted (ps ++ [name])) = components (rooted ps) ++ [.name name] :=
  tidy.components_append (List.forall_mem_singleton.mpr isName)

theorem Tidy.split {ps place : List (List Char)} (tidy : Tidy ps)
    (spells : Spells (rooted ps) place) (more : place ≠ []) :
    ∃ front name qs, ps = qs ++ [name] ∧ place = front ++ [name] ∧ IsName name ∧
      qs.filterMap component? = front.map .name := by
  rw [spells_rooted_iff tidy.whole] at spells
  cases ps using List.reverseRecOn with
  | nil =>
    have bare : place = [] := by simpa using spells.symm
    exact absurd bare more
  | append_singleton qs name =>
    cases place using List.reverseRecOn with
    | nil => exact absurd rfl more
    | append_singleton front last =>
      rw [List.filterMap_append, List.map_append] at spells
      obtain ⟨component, speaks⟩ := Option.ne_none_iff_exists'.mp (tidy.ends qs name rfl)
      obtain ⟨spelled, rfl⟩ : qs.filterMap component? = front.map .name ∧
          component = .name last := by simpa [speaks] using spells
      obtain ⟨rfl, -⟩ := of_name speaks
      exact ⟨front, last, qs, rfl, rfl, ⟨tidy.whole last (by simp), speaks⟩, spelled⟩

theorem parent?_of_spells {path : List Char} {place : List (List Char)}
    (absolute : isAbsolute path = true) (spells : Spells path place) :
    (parent? path = none ∧ place = []) ∨
      ∃ ps front last, Tidy ps ∧ parent? path = some (rooted ps) ∧ Spells (rooted ps) front ∧
        place = front ++ [last] := by
  rcases parent?_of_isAbsolute absolute with ⟨top, bare⟩ | ⟨ps, last, tidy, above, longer⟩
  · have same := spells.symm.trans bare
    exact .inl ⟨top, by simpa using same⟩
  · cases place using List.reverseRecOn with
    | nil => simp [Spells, longer, components_rooted tidy.whole] at spells
    | append_singleton front name =>
      refine .inr ⟨ps, front, name, tidy, above, ?_, rfl⟩
      rw [Spells, longer, List.map_append, ← List.cons_append] at spells
      exact (List.append_singleton_inj.mp spells).1

/-! ## File names -/

theorem fileName?_of_components {path name : List Char} {front : List Component}
    (same : components path = front ++ [.name name]) : fileName? path = some name := by
  rw [fileName?, same, List.getLast?_concat]

theorem slash_not_mem_of_fileName? {path name : List Char} (last : fileName? path = some name) :
    '/' ∉ name := by
  have member : .name name ∈ components path := by
    unfold fileName? at last
    split at last
    · rename_i found
      cases last
      exact List.mem_of_getLast? found
    · cases last
  rcases List.mem_append.mp member with start | inParts
  · split at start
    · simp at start
    · split at start <;> simp at start
  · obtain ⟨part, inPath, speaks⟩ := List.mem_filterMap.mp inParts
    rw [(of_name speaks).1]
    exact slash_not_mem_of_mem_parts inPath

theorem exists_parts_eq_concat (front : List Char) {name : List Char} (whole : '/' ∉ name) :
    ∃ first before, parts (front ++ '/' :: name) = first :: (before ++ [name]) := by
  induction front with
  | nil => exact ⟨[], [], by rw [List.nil_append, parts_slash, parts_of_noSlash whole]; rfl⟩
  | cons c front ih =>
    obtain ⟨first, before, cut⟩ := ih
    rw [List.cons_append]
    by_cases slash : c = '/'
    · subst slash
      exact ⟨[], first :: before, by rw [parts_slash, cut, List.cons_append]⟩
    · obtain ⟨head, rest, same, cutMore⟩ := parts_cons slash (front ++ '/' :: name)
      obtain ⟨rfl, rfl⟩ := List.cons.inj (same.symm.trans cut)
      exact ⟨c :: head, before, cutMore⟩

theorem exists_parts_append_eq_concat (dir : List Char) {name : List Char} (isName : IsName name) :
    ∃ before, parts (append dir name) = before ++ [name] := by
  rw [append, isAbsolute_of_isName isName, if_neg Bool.false_ne_true]
  split
  · rename_i complete
    cases dir using List.reverseRecOn with
    | nil => exact ⟨[], parts_of_noSlash isName.whole⟩
    | append_singleton dir last =>
      have slash : last = '/' := by simpa using complete
      obtain ⟨first, before, cut⟩ := exists_parts_eq_concat dir isName.whole
      refine ⟨first :: before, ?_⟩
      rw [slash, List.append_assoc, List.singleton_append, cut, List.cons_append]
  · obtain ⟨first, before, cut⟩ := exists_parts_eq_concat dir isName.whole
    exact ⟨first :: before, cut⟩

theorem fileName?_append (dir : List Char) {name : List Char} (isName : IsName name) :
    fileName? (append dir name) = some name := by
  obtain ⟨before, cut⟩ := exists_parts_append_eq_concat dir isName
  have speaks : [name].filterMap component? = [.name name] := by
    rw [List.filterMap_cons_some isName.speaks, List.filterMap_nil]
  obtain ⟨front, same⟩ : ∃ front, components (append dir name) = front ++ [.name name] :=
    ⟨_, by rw [components, cut, List.filterMap_append, speaks, ← List.append_assoc]⟩
  exact fileName?_of_components same

theorem isName_of_length {name : List Char} (whole : '/' ∉ name) (long : 2 < name.length) :
    IsName name := by
  refine ⟨whole, ?_⟩
  rcases component?_cases name with silent | parent | speaks
  · unfold component? at silent
    grind
  · rw [eq_of_parent parent] at long
    exact absurd long (by decide)
  · exact speaks

/-! ## Extensions -/

theorem nameExtension?_eq_some_iff {name extension : List Char} :
    nameExtension? name = some extension ↔
      ∃ stem, name = stem ++ '.' :: extension ∧ stem ≠ [] ∧ '.' ∉ extension := by
  have cut := List.takeWhile_append_dropWhile (p := (· != '.')) (l := name.reverse)
  have before : '.' ∉ name.reverse.takeWhile (· != '.') := by
    intro member
    have := List.mem_takeWhile_imp member
    simp at this
  constructor
  · intro ends
    simp only [nameExtension?] at ends
    split at ends
    · rename_i c rest behind
      cases ends
      rw [behind] at cut
      refine ⟨(c :: rest).reverse, ?_, by simp, by simpa using before⟩
      have turned := congrArg List.reverse cut
      simpa using turned.symm
    · cases ends
  · rintro ⟨stem, rfl, more, noDot⟩
    have reversed : (stem ++ '.' :: extension).reverse =
        extension.reverse ++ '.' :: stem.reverse := by simp
    have plain : ∀ c ∈ extension.reverse, (c != '.') = true := by
      intro c member
      simp only [bne_iff_ne, ne_eq]
      rintro rfl
      exact noDot (List.mem_reverse.mp member)
    simp only [nameExtension?]
    rw [reversed, List.takeWhile_append_of_pos plain, List.dropWhile_append_of_pos plain]
    cases turned : stem.reverse with
    | nil => exact absurd (List.reverse_eq_nil_iff.mp turned) more
    | cons c rest => simp

/-- The number of bytes of parts with a slash in front of each. -/
def lengthOfParts : List (List Char) → Nat
  | [] => 0
  | part :: rest => (Text.Utf8.encode part).length + 1 + lengthOfParts rest

theorem length_encode_rooted {ps : List (List Char)} (more : ps ≠ []) :
    (Text.Utf8.encode (rooted ps)).length = lengthOfParts ps := by
  have slash : ∀ cs, (Text.Utf8.encode ('/' :: cs)).length = (Text.Utf8.encode cs).length + 1 := by
    intro cs
    rw [Text.Utf8.encode, List.flatMap_cons, List.length_append, Nat.add_comm]
    rfl
  rw [rooted, slash]
  induction ps with
  | nil => exact absurd rfl more
  | cons part rest ih =>
    cases rest with
    | nil => simp [join, lengthOfParts]
    | cons next rest =>
      have split : Text.Utf8.encode (part ++ '/' :: join (next :: rest)) =
          Text.Utf8.encode part ++ Text.Utf8.encode ('/' :: join (next :: rest)) :=
        List.flatMap_append
      have rest := ih (by simp)
      rw [lengthOfParts, ← rest, join_cons (by simp), split, List.length_append, slash]
      omega

theorem length_encode_rooted_le {ps qs : List (List Char)} (sub : ps.Sublist qs) :
    (Text.Utf8.encode (rooted ps)).length ≤ (Text.Utf8.encode (rooted qs)).length := by
  by_cases bare : ps = []
  · have split : Text.Utf8.encode (rooted qs) =
        Text.Utf8.encode ['/'] ++ Text.Utf8.encode (join qs) := rfl
    rw [bare, split, List.length_append]
    exact Nat.le_add_right _ _
  · have more : qs ≠ [] := by
      rintro rfl
      exact bare (List.sublist_nil.mp sub)
    rw [length_encode_rooted bare, length_encode_rooted more]
    clear bare more
    induction sub with
    | slnil => exact Nat.le_refl _
    | cons part sub ih =>
      rw [lengthOfParts]
      omega
    | cons_cons part sub ih =>
      rw [lengthOfParts, lengthOfParts]
      omega

end ApiWorkflow.Path
