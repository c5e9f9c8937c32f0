import ApiWorkflow.File.Path

/-! # The order of paths

Names, components and paths are compared lexicographically, so each comparison is a
linear order: of components by rank and then by name, of paths up to spelling.
-/

namespace ApiWorkflow.Path

theorem compareNames_eq (a b : List Char) : compareNames a b = Ord.compare a b := by
  induction a generalizing b with
  | nil => cases b <;> rfl
  | cons c as ih =>
    cases b with
    | nil => rfl
    | cons d bs =>
      rw [compareNames, List.compare_cons_cons, ih]
      change _ = (compareOfLessAndEq c d).then _
      unfold compareOfLessAndEq
      by_cases less : c < d
      · rw [if_pos less, if_pos less]
        rfl
      · rw [if_neg less, if_neg less]
        by_cases same : c = d
        · subst same
          rw [if_neg less, if_pos rfl]
          rfl
        · have more : d < c := by
            apply Decidable.byContradiction
            intro notMore
            exact same (Char.le_antisymm (Char.not_lt.mp notMore) (Char.not_lt.mp less))
          rw [if_pos more, if_neg same]
          rfl

namespace Component

/-- The place of a kind of component among the others. -/
def rank : Component → Nat
  | .root => 0
  | .current => 1
  | .parent => 2
  | .name _ => 3

/-- The name of a component that has one. -/
def text : Component → List Char
  | .name text => text
  | _ => []

theorem compare_eq (a b : Component) :
    a.compare b = compareLex (compareOn rank) (compareOn text) a b := by
  cases a with
  | name =>
    cases b with
    | name => simp [compare, compareLex, compareOn, rank, text, compareNames_eq]
    | root | current | parent => rfl
  | root | current | parent => cases b <;> rfl

instance : Std.TransCmp Component.compare := by
  have same : Component.compare = compareLex (compareOn rank) (compareOn text) := by
    funext a b
    exact compare_eq a b
  rw [same]
  infer_instance

instance : Std.LawfulEqCmp Component.compare where
  eq_of_compare := by
    intro a b same
    rw [compare_eq, compareLex_eq_eq, compareOn, compareOn, Std.compare_eq_iff_eq,
      Std.compare_eq_iff_eq] at same
    cases a <;> cases b <;> simp_all [rank, text]

end Component

theorem compareComponents_eq (a b : List Component) :
    compareComponents a b = List.compareLex Component.compare a b := by
  induction a generalizing b with
  | nil => cases b <;> rfl
  | cons c as ih =>
    cases b with
    | nil => rfl
    | cons d bs => rw [compareComponents, List.compareLex_cons_cons, ih]

instance : Std.TransCmp compare where
  eq_swap := by
    intro a b
    rw [compare, compare, compareComponents_eq, compareComponents_eq]
    exact Std.OrientedCmp.eq_swap
  isLE_trans := by
    intro a b c before behind
    rw [compare, compareComponents_eq] at *
    exact Std.TransCmp.isLE_trans before behind

theorem compare_eq_eq_iff {p q : List Char} :
    compare p q = .eq ↔ components p = components q := by
  rw [compare, compareComponents_eq]
  exact Std.LawfulEqCmp.compare_eq_iff_eq

end ApiWorkflow.Path
