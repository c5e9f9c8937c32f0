import ApiWorkflow.Json.Fields
import Mathlib.Data.List.Induction

/-! # Named values as maps

Fields that are built by `insert` are in strictly increasing order of their names.
In ordered fields no name stands twice, so membership and look-up say the same and
taking entries away by their values acts on each look-up by itself.
-/

namespace ApiWorkflow.Fields

variable {α : Type}

/-- Strictly increasing order of the names. -/
def Ordered (fields : Fields α) : Prop :=
  fields.Pairwise fun left right => left.1 < right.1

theorem mem_insert {name : String} {value : α} {entry : String × α} {fields : Fields α}
    (member : entry ∈ fields.insert name value) : entry = (name, value) ∨ entry ∈ fields := by
  fun_induction insert name value fields with
  | case1 => exact .inl (List.mem_singleton.mp member)
  | case2 v rest => exact (List.mem_cons.mp member).imp_right (List.mem_cons_of_mem _)
  | case3 n v rest ne less => exact List.mem_cons.mp member
  | case4 n v rest ne notLess ih =>
    rcases List.mem_cons.mp member with here | later
    · exact .inr (here ▸ List.mem_cons_self)
    · exact (ih later).imp_right (List.mem_cons_of_mem _)

theorem get?_insert (name other : String) (value : α) (fields : Fields α) :
    (fields.insert name value).get? other = if other = name then some value else fields.get? other := by
  split
  · rename_i same
    rw [same, get?_insert_self]
  · rename_i ne
    exact get?_insert_of_ne ne value fields

theorem get?_erase (name other : String) (fields : Fields α) :
    (fields.erase name).get? other = if other = name then none else fields.get? other := by
  split
  · rename_i same
    rw [same, get?_erase_self]
  · rename_i ne
    exact get?_erase_of_ne ne fields

theorem ordered_nil : Ordered ([] : Fields α) :=
  List.Pairwise.nil

theorem ordered_insert (name : String) (value : α) {fields : Fields α} (ordered : fields.Ordered) :
    (fields.insert name value).Ordered := by
  fun_induction insert name value fields with
  | case1 => exact List.pairwise_singleton _ _
  | case2 v rest =>
    obtain ⟨first, others⟩ := List.pairwise_cons.mp ordered
    exact List.pairwise_cons.mpr ⟨first, others⟩
  | case3 n v rest ne less =>
    obtain ⟨first, -⟩ := List.pairwise_cons.mp ordered
    refine List.pairwise_cons.mpr ⟨?_, ordered⟩
    intro entry member
    rcases List.mem_cons.mp member with rfl | later
    · exact less
    · exact String.lt_trans less (first entry later)
  | case4 n v rest ne notLess ih =>
    obtain ⟨first, others⟩ := List.pairwise_cons.mp ordered
    refine List.pairwise_cons.mpr ⟨?_, ih others⟩
    intro entry member
    rcases mem_insert member with rfl | later
    · exact Decidable.byContradiction fun greater =>
        ne (String.le_antisymm greater notLess)
    · exact first entry later

theorem ordered_filter (keep : String × α → Bool) {fields : Fields α} (ordered : fields.Ordered) :
    Ordered (fields.filter keep) :=
  List.Pairwise.filter keep ordered

theorem ordered_erase (name : String) {fields : Fields α} (ordered : fields.Ordered) :
    (fields.erase name).Ordered :=
  ordered_filter _ ordered

theorem get?_cons (name n : String) (v : α) (rest : Fields α) :
    get? name ((n, v) :: rest) = if name = n then some v else get? name rest := by
  rw [get?, List.lookup_cons]
  by_cases same : name = n
  · rw [if_pos same, beq_iff_eq.mpr same]
  · rw [if_neg same, beq_eq_false_iff_ne.mpr same, get?]

theorem mem_of_get? {name : String} {value : α} {fields : Fields α}
    (found : fields.get? name = some value) : (name, value) ∈ fields := by
  induction fields with
  | nil => cases found
  | cons entry rest ih =>
    rw [get?_cons] at found
    split at found
    · rename_i same
      cases found
      rw [same]
      exact List.mem_cons_self
    · exact List.mem_cons_of_mem _ (ih found)

theorem exists_get?_of_mem {name : String} {value : α} {fields : Fields α}
    (member : (name, value) ∈ fields) : ∃ found, fields.get? name = some found := by
  induction fields with
  | nil => cases member
  | cons entry rest ih =>
    rw [get?_cons]
    split
    · exact ⟨entry.2, rfl⟩
    · rename_i other
      rcases List.mem_cons.mp member with rfl | later
      · exact absurd rfl other
      · exact ih later

theorem get?_of_mem {name : String} {value : α} {fields : Fields α} (ordered : fields.Ordered)
    (member : (name, value) ∈ fields) : fields.get? name = some value := by
  induction fields with
  | nil => cases member
  | cons entry rest ih =>
    obtain ⟨first, others⟩ := List.pairwise_cons.mp ordered
    rw [get?_cons]
    rcases List.mem_cons.mp member with rfl | later
    · rw [if_pos rfl]
    · have less : entry.1 < name := first _ later
      have ne : name ≠ entry.1 := by
        rintro rfl
        exact String.lt_irrefl _ less
      rw [if_neg ne]
      exact ih others later

theorem get?_eq_some_iff {name : String} {value : α} {fields : Fields α}
    (ordered : fields.Ordered) : fields.get? name = some value ↔ (name, value) ∈ fields :=
  ⟨mem_of_get?, get?_of_mem ordered⟩

theorem nodup_names {fields : Fields α} (ordered : fields.Ordered) :
    (fields.map Prod.fst).Nodup := by
  apply List.pairwise_map.mpr
  apply List.Pairwise.imp _ ordered
  intro left right less same
  rw [same] at less
  exact String.lt_irrefl _ less

theorem mem_names_iff {fields : Fields α} {name : String} :
    name ∈ fields.map Prod.fst ↔ fields.get? name ≠ none := by
  rw [List.mem_map, Option.ne_none_iff_exists']
  constructor
  · rintro ⟨entry, member, rfl⟩
    exact exists_get?_of_mem member
  · rintro ⟨value, found⟩
    exact ⟨(name, value), mem_of_get? found, rfl⟩

/-- Ordered fields are known by their look-ups. -/
theorem eq_of_get?_eq {left right : Fields α} (isLeft : left.Ordered) (isRight : right.Ordered)
    (same : ∀ name, left.get? name = right.get? name) : left = right := by
  have distinct {fields : Fields α} (ordered : fields.Ordered) : fields.Nodup := by
    apply List.Pairwise.imp _ (List.pairwise_map.mp (nodup_names ordered))
    exact fun other same => other (congrArg Prod.fst same)
  have members : left.Perm right := by
    apply (List.perm_ext_iff_of_nodup (distinct isLeft) (distinct isRight)).mpr
    intro entry
    rw [← get?_eq_some_iff isLeft, ← get?_eq_some_iff isRight, same]
  apply members.eq_of_pairwise _ isLeft isRight
  intro first second _ _ less greater
  exact absurd (String.lt_trans less greater) (String.lt_irrefl _)

theorem get?_filter {fields : Fields α} (ordered : fields.Ordered) (keep : α → Bool)
    (name : String) :
    get? name (fields.filter fun entry => keep entry.2) = (fields.get? name).filter keep := by
  apply Option.ext
  intro value
  rw [get?_eq_some_iff (ordered_filter _ ordered), List.mem_filter, Option.filter_eq_some_iff,
    get?_eq_some_iff ordered]

theorem length_insert {name : String} (value : α) {fields : Fields α}
    (free : fields.get? name = none) : (fields.insert name value).length = fields.length + 1 := by
  fun_induction insert name value fields with
  | case1 => rfl
  | case2 v rest =>
    rw [get?_cons, if_pos rfl] at free
    cases free
  | case3 n v rest ne less => rfl
  | case4 n v rest ne notLess ih =>
    rw [get?_cons, if_neg ne] at free
    rw [List.length_cons, ih free, List.length_cons]

theorem insert_perm_cons {name : String} (value : α) {fields : Fields α}
    (free : fields.get? name = none) : (fields.insert name value).Perm ((name, value) :: fields) := by
  fun_induction insert name value fields with
  | case1 => exact .refl _
  | case2 v rest =>
    rw [get?_cons, if_pos rfl] at free
    cases free
  | case3 n v rest ne less => exact .refl _
  | case4 n v rest ne notLess ih =>
    rw [get?_cons, if_neg ne] at free
    exact ((ih free).cons (n, v)).trans (.swap _ _ _)

theorem ofList_concat (entries : List (String × α)) (name : String) (value : α) :
    ofList (entries ++ [(name, value)]) = (ofList entries).insert name value := by
  rw [ofList, List.foldl_append]
  rfl

theorem ordered_ofList (entries : List (String × α)) : (ofList entries).Ordered := by
  induction entries using List.reverseRecOn with
  | nil => exact ordered_nil
  | append_singleton entries entry ih =>
    rw [ofList_concat]
    exact ordered_insert _ _ ih

theorem get?_ofList (entries : List (String × α)) (name : String) :
    (ofList entries).get? name = get? name entries.reverse := by
  induction entries using List.reverseRecOn with
  | nil => rfl
  | append_singleton entries entry ih =>
    rw [ofList_concat, List.reverse_append, List.reverse_singleton, List.singleton_append,
      get?_cons]
    by_cases same : name = entry.1
    · rw [if_pos same, same, get?_insert_self]
    · rw [if_neg same, get?_insert_of_ne same, ih]

/-- Where the numbers under a name grow, the greatest one is kept. -/
theorem get?_ofList_eq_some_iff {entries : List (String × Nat)}
    (growing : entries.Pairwise fun left right => left.1 = right.1 → left.2 < right.2)
    {name : String} {n : Nat} :
    (ofList entries).get? name = some n ↔ (name, n) ∈ entries ∧ ∀ m, (name, m) ∈ entries → m ≤ n := by
  induction entries using List.reverseRecOn with
  | nil => simp [ofList, get?]
  | append_singleton entries last ih =>
    obtain ⟨before, -, above⟩ := List.pairwise_append.mp growing
    rw [ofList_concat]
    by_cases same : name = last.1
    · have below : ∀ m, (name, m) ∈ entries → m < last.2 := fun m member =>
        above (name, m) member last List.mem_cons_self same
      have here : ∀ m, (name, m) = last ↔ m = last.2 := by
        intro m
        rw [same]
        exact ⟨fun eq => congrArg Prod.snd eq, fun eq => eq ▸ rfl⟩
      rw [same, get?_insert_self, ← same]
      simp only [Option.some.injEq, List.mem_append, List.mem_singleton, here]
      grind
    · have other : ∀ m, (name, m) ≠ last := fun m eq => same (congrArg Prod.fst eq)
      rw [get?_insert_of_ne same, ih before]
      simp [other]

theorem mem_ofList {entry : String × α} {entries : List (String × α)}
    (member : entry ∈ ofList entries) : entry ∈ entries := by
  induction entries using List.reverseRecOn with
  | nil => cases member
  | append_singleton entries last ih =>
    rw [ofList_concat] at member
    rcases mem_insert member with rfl | earlier
    · exact List.mem_append_right _ List.mem_cons_self
    · exact List.mem_append_left _ (ih earlier)

theorem insert_above {name : String} (value : α) {fields : Fields α}
    (above : ∀ entry ∈ fields, entry.1 < name) : fields.insert name value = fields ++ [(name, value)] := by
  induction fields with
  | nil => rfl
  | cons entry rest ih =>
    obtain ⟨first, others⟩ := List.forall_mem_cons.mp above
    have ne : name ≠ entry.1 := by
      rintro rfl
      exact String.lt_irrefl _ first
    have notLess : ¬name < entry.1 := fun less => String.lt_irrefl _ (String.lt_trans less first)
    rw [insert, if_neg ne, if_neg notLess, ih others, List.cons_append]

theorem ofList_eq_self {fields : Fields α} (ordered : fields.Ordered) : ofList fields = fields := by
  induction fields using List.reverseRecOn with
  | nil => rfl
  | append_singleton fields last ih =>
    obtain ⟨ordered, -, above⟩ := List.pairwise_append.mp ordered
    rw [ofList_concat, ih ordered]
    exact insert_above _ fun entry member => above entry member last List.mem_cons_self

end ApiWorkflow.Fields
