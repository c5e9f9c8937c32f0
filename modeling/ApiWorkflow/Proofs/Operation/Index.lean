import ApiWorkflow.Operation.Index
import ApiWorkflow.Proofs.Fields
import ApiWorkflow.Proofs.File.Uri

/-! # What the index of operations finds

Each change of an index is described by what `find?` and the descriptions give after
it. An operation stays under its id until the description that it comes from goes;
operations that are added later under the same id are dropped.
-/

namespace ApiWorkflow

/-- A description of the file at a uri: it has the uri, and so have its operations. -/
structure ApiDescription.BelongsTo (description : ApiDescription) (uri : String) : Prop where
  itself : description.uri = uri
  operations : ∀ operation ∈ description.operations, operation.fileUri = uri

namespace OperationIndex

/-- The order of both maps, and operations under their own ids. -/
structure WellFormed (index : OperationIndex) : Prop where
  operations : index.operations.Ordered
  descriptions : index.descriptions.Ordered
  keyed : ∀ id operation, index.find? id = some operation → operation.operationId = id

theorem wellFormed_empty : WellFormed {} where
  operations := Fields.ordered_nil
  descriptions := Fields.ordered_nil
  keyed := by
    intro id operation found
    cases found

theorem WellFormed.pairwise_all {index : OperationIndex} (wellFormed : index.WellFormed) :
    index.all.Pairwise fun left right => left.operationId < right.operationId := by
  have keyed : ∀ entry ∈ index.operations, entry.2.operationId = entry.1 := by
    intro entry member
    exact wellFormed.keyed entry.1 entry.2 (Fields.get?_of_mem wellFormed.operations member)
  refine List.pairwise_map.mpr (wellFormed.operations.imp_of_mem ?_)
  intro left right isLeft isRight less
  rw [keyed left isLeft, keyed right isRight]
  exact less

/-- An index is known by what it finds. -/
theorem WellFormed.ext {left right : OperationIndex} (isLeft : left.WellFormed)
    (isRight : right.WellFormed) (found : ∀ id, left.find? id = right.find? id)
    (described : ∀ key, left.descriptions.get? key = right.descriptions.get? key) : left = right := by
  have operations := Fields.eq_of_get?_eq isLeft.operations isRight.operations found
  have descriptions := Fields.eq_of_get?_eq isLeft.descriptions isRight.descriptions described
  cases left
  cases right
  exact congr (congrArg _ operations) descriptions

/-! ## Adding operations -/

theorem isFree_iff {index : OperationIndex} {id : String} :
    index.isFree id = true ↔ index.find? id = none := by
  rw [isFree, Option.isNone_iff_eq_none]

theorem find?_add (index : OperationIndex) (operation : Operation) (id : String) :
    (index.add operation).find? id =
      (index.find? id).or (if operation.operationId = id then some operation else none) := by
  unfold add
  split
  · rename_i free
    have free := isFree_iff.mp free
    by_cases same : operation.operationId = id
    · subst same
      rw [free, if_pos rfl]
      exact Fields.get?_insert_self _ _ _
    · rw [if_neg same, Option.or_none]
      exact Fields.get?_insert_of_ne (Ne.symm same) _ _
  · rename_i taken
    rw [isFree_iff] at taken
    by_cases same : operation.operationId = id
    · subst same
      obtain ⟨owner, found⟩ := Option.ne_none_iff_exists'.mp taken
      rw [found, Option.some_or]
    · rw [if_neg same, Option.or_none]

/-- The first operation under an id wins, and one that was there before wins over all. -/
theorem find?_addAll (index : OperationIndex) (operations : List Operation) (id : String) :
    (index.addAll operations).1.find? id =
      (index.find? id).or (operations.find? fun operation => operation.operationId == id) := by
  induction operations generalizing index with
  | nil => rw [addAll, List.find?_nil, Option.or_none]
  | cons operation rest ih =>
    rw [addAll, ih, find?_add, Option.or_assoc, List.find?_cons]
    by_cases same : operation.operationId = id
    · rw [if_pos same, beq_iff_eq.mpr same, Option.some_or]
    · rw [if_neg same, beq_eq_false_iff_ne.mpr same, Option.none_or]

theorem descriptions_add (index : OperationIndex) (operation : Operation) :
    (index.add operation).descriptions = index.descriptions := by
  unfold add
  split <;> rfl

@[simp]
theorem descriptions_addAll (index : OperationIndex) (operations : List Operation) :
    (index.addAll operations).1.descriptions = index.descriptions := by
  induction operations generalizing index with
  | nil => rfl
  | cons operation rest ih => rw [addAll, ih, descriptions_add]

theorem size_add (index : OperationIndex) (operation : Operation) :
    (index.add operation).size =
      if index.isFree operation.operationId then index.size + 1 else index.size := by
  unfold add
  split
  · rename_i free
    exact Fields.length_insert operation (isFree_iff.mp free)
  · rfl

theorem size_addAll (index : OperationIndex) (operations : List Operation) :
    (index.addAll operations).1.size = index.size + (index.addAll operations).2 := by
  induction operations generalizing index with
  | nil => rfl
  | cons operation rest ih =>
    simp only [addAll]
    rw [ih, size_add]
    split <;> omega

theorem WellFormed.add {index : OperationIndex} (wellFormed : index.WellFormed)
    (operation : Operation) : (index.add operation).WellFormed where
  operations := by
    unfold OperationIndex.add
    split
    · exact Fields.ordered_insert _ _ wellFormed.operations
    · exact wellFormed.operations
  descriptions := by
    rw [descriptions_add]
    exact wellFormed.descriptions
  keyed := by
    intro id found isFound
    rw [find?_add] at isFound
    cases before : index.find? id with
    | some owner =>
      rw [before, Option.some_or] at isFound
      exact wellFormed.keyed id found (before.trans isFound)
    | none =>
      rw [before, Option.none_or] at isFound
      split at isFound
      · rename_i same
        cases isFound
        exact same
      · cases isFound

theorem WellFormed.addAll {index : OperationIndex} (wellFormed : index.WellFormed)
    (operations : List Operation) : (index.addAll operations).1.WellFormed := by
  induction operations generalizing index with
  | nil => exact wellFormed
  | cons operation rest ih =>
    rw [OperationIndex.addAll]
    exact ih (wellFormed.add operation)

/-- The operations that an index takes from a list: the first of each id that is free. -/
def taken (index : OperationIndex) : List Operation → List Operation
  | [] => []
  | operation :: rest =>
    let others := (index.add operation).taken rest
    if index.isFree operation.operationId then operation :: others else others

/-- The entries of an index under the ids of its operations. -/
def entriesOf (operations : List Operation) : Fields Operation :=
  operations.map fun operation => (operation.operationId, operation)

theorem mem_taken_iff {index : OperationIndex} {operations : List Operation}
    {operation : Operation} :
    operation ∈ index.taken operations ↔
      operations.find? (fun other => other.operationId == operation.operationId) = some operation ∧
        index.find? operation.operationId = none := by
  induction operations generalizing index with
  | nil => simp [taken]
  | cons first rest ih =>
    have below := @ih (index.add first)
    rw [find?_add, Option.or_eq_none_iff] at below
    simp only [taken, List.find?_cons]
    by_cases same : first.operationId = operation.operationId
    · -- Behind the first one its id is not free any more.
      have gone : operation ∉ (index.add first).taken rest := by simp [below, same]
      rw [beq_iff_eq.mpr same]
      split
      · rename_i free
        rw [List.mem_cons]
        constructor
        · rintro (rfl | later)
          · exact ⟨rfl, isFree_iff.mp free⟩
          · exact absurd later gone
        · rintro ⟨isFirst, -⟩
          exact .inl (Option.some.inj isFirst).symm
      · rename_i owned
        constructor
        · intro later
          exact absurd later gone
        · rintro ⟨-, free⟩
          exact absurd (isFree_iff.mpr (same ▸ free)) owned
    · have other : operation ≠ first := fun equal => same (equal ▸ rfl)
      rw [beq_eq_false_iff_ne.mpr same]
      split
      · simp [below, same, other]
      · simp [below, same]

theorem length_taken (index : OperationIndex) (operations : List Operation) :
    (index.taken operations).length = (index.addAll operations).2 := by
  induction operations generalizing index with
  | nil => rfl
  | cons operation rest ih =>
    simp only [taken, addAll]
    split
    · rw [List.length_cons, ih]
    · exact ih _

theorem nodup_taken (index : OperationIndex) (operations : List Operation) :
    ((index.taken operations).map (·.operationId)).Nodup := by
  induction operations generalizing index with
  | nil => exact List.nodup_nil
  | cons operation rest ih =>
    simp only [taken]
    split
    · refine List.nodup_cons.mpr ⟨?_, ih _⟩
      intro again
      obtain ⟨other, member, same⟩ := List.mem_map.mp again
      have free := (mem_taken_iff.mp member).2
      rw [same, find?_add, Option.or_eq_none_iff, if_pos rfl] at free
      cases free.2
    · exact ih _

/-- Nothing that was there goes, and what is new is what was taken. -/
theorem operations_addAll_perm (index : OperationIndex) (operations : List Operation) :
    (index.addAll operations).1.operations.Perm
      (index.operations ++ entriesOf (index.taken operations)) := by
  induction operations generalizing index with
  | nil =>
    rw [taken, entriesOf, List.map_nil, List.append_nil]
    exact .refl _
  | cons operation rest ih =>
    refine (ih (index.add operation)).trans ?_
    simp only [taken]
    by_cases free : index.isFree operation.operationId = true
    · rw [if_pos free, add, if_pos free]
      exact ((Fields.insert_perm_cons operation (isFree_iff.mp free)).append_right _).trans
        List.perm_middle.symm
    · rw [if_neg free, add, if_neg free]

/-! ## Removing and replacing a description -/

theorem find?_remove_eq_filter {index : OperationIndex} (wellFormed : index.WellFormed)
    (uri id : String) :
    (index.remove uri).find? id = (index.find? id).filter fun operation =>
      operation.fileUri != FileUri.key uri && operation.fileUri != uri :=
  Fields.get?_filter wellFormed.operations
    (fun operation => operation.fileUri != FileUri.key uri && operation.fileUri != uri) id

theorem find?_remove {index : OperationIndex} {uri : String} (wellFormed : index.WellFormed)
    (settled : FileUri.key uri = uri) (id : String) :
    (index.remove uri).find? id =
      (index.find? id).filter fun operation => operation.fileUri != uri := by
  rw [find?_remove_eq_filter wellFormed, settled]
  simp only [Bool.and_self]

theorem operations_remove (index : OperationIndex) {uri : String}
    (settled : FileUri.key uri = uri) : (index.remove uri).operations =
      index.operations.filter fun entry => entry.2.fileUri != uri := by
  rw [remove, settled]
  simp only [Bool.and_self]

theorem remove_remove (index : OperationIndex) (uri : String) :
    (index.remove uri).remove uri = index.remove uri := by
  simp only [remove, Fields.erase, List.filter_filter, Bool.and_self]

theorem find?_remove_eq_none_iff {index : OperationIndex} {uri : String}
    (wellFormed : index.WellFormed) (settled : FileUri.key uri = uri) {id : String} :
    (index.remove uri).find? id = none ↔
      ∀ owner, (id, owner) ∈ index.operations → owner.fileUri = uri := by
  rw [find?_remove wellFormed settled, Option.filter_eq_none_iff]
  simp [← Fields.get?_eq_some_iff wellFormed.operations, find?]

theorem get?_descriptions_remove (index : OperationIndex) {uri : String}
    (settled : FileUri.key uri = uri) (key : String) :
    (index.remove uri).descriptions.get? key =
      if key = uri then none else index.descriptions.get? key := by
  have erased : (index.remove uri).descriptions = index.descriptions.erase uri := by
    rw [remove, settled]
  rw [erased, Fields.get?_erase]

theorem WellFormed.remove {index : OperationIndex} (wellFormed : index.WellFormed) (uri : String) :
    (index.remove uri).WellFormed where
  operations := Fields.ordered_filter _ wellFormed.operations
  descriptions := Fields.ordered_erase _ wellFormed.descriptions
  keyed := by
    intro id operation found
    have member := (List.mem_filter.mp (Fields.mem_of_get? found)).1
    exact wellFormed.keyed id operation (Fields.get?_of_mem wellFormed.operations member)

/-- The index with a description in place of what it has of a uri. -/
def replace (index : OperationIndex) (uri : String) (description : ApiDescription) :
    OperationIndex :=
  ((index.remove uri).addAll description.operations).1.addDescription description

theorem find?_replace {index : OperationIndex} {uri : String} (wellFormed : index.WellFormed)
    (settled : FileUri.key uri = uri) (description : ApiDescription) (id : String) :
    (index.replace uri description).find? id =
      ((index.find? id).filter fun operation => operation.fileUri != uri).or
        (description.operations.find? fun operation => operation.operationId == id) := by
  rw [← find?_remove wellFormed settled, ← find?_addAll]
  rfl

theorem size_replace (index : OperationIndex) (uri : String) (description : ApiDescription) :
    (index.replace uri description).size =
      (index.remove uri).size + ((index.remove uri).addAll description.operations).2 :=
  size_addAll (index.remove uri) description.operations

theorem descriptions_replace (index : OperationIndex) {uri : String}
    (settled : FileUri.key uri = uri) {description : ApiDescription}
    (belongs : description.BelongsTo uri) :
    (index.replace uri description).descriptions =
      (index.remove uri).descriptions.insert uri description := by
  rw [replace, addDescription, belongs.itself, settled, descriptions_addAll]

theorem get?_descriptions_replace (index : OperationIndex) {uri : String}
    (settled : FileUri.key uri = uri) {description : ApiDescription}
    (belongs : description.BelongsTo uri) (key : String) :
    (index.replace uri description).descriptions.get? key =
      if key = uri then some description else index.descriptions.get? key := by
  rw [descriptions_replace index settled belongs, Fields.get?_insert]
  split
  · rfl
  · rename_i ne
    rw [get?_descriptions_remove index settled, if_neg ne]

theorem WellFormed.replace {index : OperationIndex} (wellFormed : index.WellFormed) (uri : String)
    (description : ApiDescription) : (index.replace uri description).WellFormed := by
  have added := (wellFormed.remove uri).addAll description.operations
  exact ⟨added.operations, Fields.ordered_insert _ _ added.descriptions, added.keyed⟩

/-! ## The operations of a file -/

/-- The operations that an index has of a file. -/
def ofFile (index : OperationIndex) (uri : String) : Fields Operation :=
  index.operations.filter fun entry => entry.2.fileUri == uri

theorem mem_ofFile_iff {index : OperationIndex} (wellFormed : index.WellFormed)
    {uri id : String} {operation : Operation} :
    (id, operation) ∈ index.ofFile uri ↔
      index.find? id = some operation ∧ operation.fileUri = uri := by
  rw [ofFile, List.mem_filter, ← Fields.get?_eq_some_iff wellFormed.operations, beq_iff_eq]
  rfl

theorem WellFormed.ofFile_eq {left right : OperationIndex} (isLeft : left.WellFormed)
    (isRight : right.WellFormed) {uri : String}
    (same : ∀ id, (left.find? id).filter (fun operation => operation.fileUri == uri) =
      (right.find? id).filter fun operation => operation.fileUri == uri) :
    left.ofFile uri = right.ofFile uri := by
  apply Fields.eq_of_get?_eq (Fields.ordered_filter _ isLeft.operations)
    (Fields.ordered_filter _ isRight.operations)
  intro id
  rw [Fields.get?_filter isLeft.operations fun operation => operation.fileUri == uri,
    Fields.get?_filter isRight.operations fun operation => operation.fileUri == uri]
  exact same id

theorem size_remove_add_length_ofFile (index : OperationIndex) {uri : String}
    (settled : FileUri.key uri = uri) :
    (index.remove uri).size + (index.ofFile uri).length = index.size := by
  have others : (index.remove uri).operations =
      index.operations.filter fun entry => ¬(entry.2.fileUri == uri) := by
    rw [remove, settled]
    simp only [Bool.and_self, bne, decide_not, Bool.decide_eq_true]
  rw [size, others, ofFile, size, Nat.add_comm, ← List.countP_eq_length_filter,
    ← List.countP_eq_length_filter]
  exact (List.length_eq_countP_add_countP _).symm

/-- Of a description that is read into an index, those operations are added that the index has of
    its file afterwards. -/
theorem added_eq_length_ofFile {index : OperationIndex} (wellFormed : index.WellFormed)
    {uri : String} (settled : FileUri.key uri = uri) {description : ApiDescription}
    (belongs : description.BelongsTo uri) :
    ((index.remove uri).addAll description.operations).2 =
      ((index.replace uri description).ofFile uri).length := by
  have others : ((index.replace uri description).remove uri).operations =
      (index.remove uri).operations := by
    apply Fields.eq_of_get?_eq ((wellFormed.replace uri description).remove uri).operations
      (wellFormed.remove uri).operations
    intro id
    change ((index.replace uri description).remove uri).find? id = (index.remove uri).find? id
    rw [find?_remove (wellFormed.replace uri description) settled, find?_replace wellFormed settled,
      find?_remove wellFormed settled]
    cases kept : (index.find? id).filter fun operation => operation.fileUri != uri with
    | some operation =>
      rw [Option.some_or, Option.filter_some, if_pos (Option.filter_eq_some_iff.mp kept).2]
    | none =>
      rw [Option.none_or, Option.filter_eq_none_iff]
      intro operation found
      have own := belongs.operations operation (List.mem_of_find?_eq_some found)
      simp [own]
  have size := size_remove_add_length_ofFile (index.replace uri description) settled
  rw [size_replace, OperationIndex.size, others] at size
  exact (Nat.add_left_cancel size).symm

end OperationIndex

end ApiWorkflow
