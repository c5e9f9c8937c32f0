import ApiWorkflow.Proofs.History
import ApiWorkflow.Proofs.Operation.Index
import Mathlib.Data.Set.Card

/-! # The index as a history

Any number of writers and readers call an index, one call at a time. Whatever the calls and
their order, the operation under an id is that of the first call that added the id since it
was last free, and an id gets free by a call that clears the index or removes the file of its
operation. The descriptions are those added last.
-/

namespace ApiWorkflow.OperationIndex

/-- What can be looked up in an index. -/
inductive Question where
  | find (id : String)
  | description (uri : String)
  | count
  | list
  deriving Repr, DecidableEq

/-- What can be asked of an index. -/
inductive Call where
  | add (operation : Operation)
  | addDescription (description : ApiDescription)
  | remove (uri : String)
  | clear
  | look (question : Question)
  deriving Repr, DecidableEq

/-- What a call is answered with. -/
inductive Reply where
  /-- Whether the id was free. -/
  | added (isNew : Bool)
  | operation (found : Option Operation)
  | description (found : Option ApiDescription)
  | count (n : Nat)
  | list (operations : List Operation)
  | done
  deriving Repr, DecidableEq

def look (index : OperationIndex) : Question → Reply
  | .find id => .operation (index.find? id)
  | .description uri => .description (index.description? uri)
  | .count => .count index.size
  | .list => .list index.all

/-- The index after a call, with the reply. -/
def answer (index : OperationIndex) : Call → OperationIndex × Reply
  | .add operation => (index.add operation, .added (index.isFree operation.operationId))
  | .addDescription description => (index.addDescription description, .done)
  | .remove uri => (index.remove uri, .done)
  | .clear => (index.clear, .done)
  | .look question => (index, index.look question)

/-- The index after some calls, empty at first. -/
def after (calls : List Call) : OperationIndex :=
  calls.foldl (fun index call => (index.answer call).1) {}

theorem after_concat (calls : List Call) (call : Call) :
    after (calls ++ [call]) = ((after calls).answer call).1 := by
  rw [after, List.foldl_append]
  rfl

/-! ## What a call changes -/

/-- A call that takes an operation out of the index. -/
inductive Releases : Call → Operation → Prop where
  | clear {operation : Operation} : Releases .clear operation
  | remove {uri : String} {operation : Operation}
    (owner : operation.fileUri = uri ∨ operation.fileUri = FileUri.key uri) :
    Releases (.remove uri) operation

/-- A call that takes the description under a key out of the index, or puts another one in
    its place. -/
inductive Supersedes (key : String) : Call → Prop where
  | clear : Supersedes key .clear
  | remove {uri : String} (same : FileUri.key uri = key) : Supersedes key (.remove uri)
  | add {description : ApiDescription} (same : FileUri.key description.uri = key) :
    Supersedes key (.addDescription description)

section

variable {index : OperationIndex}

theorem WellFormed.answer (wellFormed : index.WellFormed) (call : Call) :
    (index.answer call).1.WellFormed := by
  cases call with
  | add operation => exact wellFormed.add operation
  | addDescription description =>
    exact ⟨wellFormed.operations, Fields.ordered_insert _ _ wellFormed.descriptions,
      wellFormed.keyed⟩
  | remove uri => exact wellFormed.remove uri
  | clear => exact wellFormed_empty
  | look question => exact wellFormed

/-- A call leaves an operation under its id, releases it, or puts one under a free id. -/
theorem find?_answer_eq_some_iff (wellFormed : index.WellFormed) {call : Call} {id : String}
    {operation : Operation} :
    (index.answer call).1.find? id = some operation ↔
      (call = .add operation ∧ operation.operationId = id ∧ index.find? id = none) ∨
        index.find? id = some operation ∧ ¬Releases call operation := by
  cases call with
  | add other =>
    have stays : ¬Releases (.add other) operation := by rintro ⟨⟩
    simp only [OperationIndex.answer, find?_add, Option.or_eq_some_iff, stays, Call.add.injEq]
    grind
  | remove uri =>
    have released : Releases (.remove uri) operation ↔
        operation.fileUri = uri ∨ operation.fileUri = FileUri.key uri := by
      refine ⟨?_, .remove⟩
      intro releases
      cases releases with
      | remove owner => exact owner
    simp only [OperationIndex.answer, find?_remove_eq_filter wellFormed, Option.filter_eq_some_iff,
      released, Bool.and_eq_true, bne_iff_ne]
    grind
  | clear =>
    have released : Releases .clear operation := .clear
    simp [OperationIndex.answer, clear, find?, Fields.get?, released]
  | addDescription description =>
    have stays : ¬Releases (.addDescription description) operation := by rintro ⟨⟩
    simp [OperationIndex.answer, addDescription, find?, stays]
  | look question =>
    have stays : ¬Releases (.look question) operation := by rintro ⟨⟩
    simp [OperationIndex.answer, stays]

/-- A call puts a description under its key, takes it away, or leaves it there. -/
theorem get?_descriptions_answer_eq_some_iff {call : Call} {key : String}
    {description : ApiDescription} :
    (index.answer call).1.descriptions.get? key = some description ↔
      (call = .addDescription description ∧ FileUri.key description.uri = key) ∨
        index.descriptions.get? key = some description ∧ ¬Supersedes key call := by
  cases call with
  | add operation =>
    have stays : ¬Supersedes key (.add operation) := by rintro ⟨⟩
    simp [OperationIndex.answer, descriptions_add, stays]
  | addDescription other =>
    have superseded : Supersedes key (.addDescription other) ↔ FileUri.key other.uri = key := by
      refine ⟨?_, .add⟩
      intro supersedes
      cases supersedes with
      | add same => exact same
    by_cases same : FileUri.key other.uri = key
    · subst same
      simp only [OperationIndex.answer, addDescription, Fields.get?_insert_self, superseded]
      grind
    · simp only [OperationIndex.answer, addDescription, Fields.get?_insert_of_ne (Ne.symm same),
        superseded]
      grind
  | remove uri =>
    have superseded : Supersedes key (.remove uri) ↔ FileUri.key uri = key := by
      refine ⟨?_, .remove⟩
      intro supersedes
      cases supersedes with
      | remove same => exact same
    by_cases same : FileUri.key uri = key
    · subst same
      simp [OperationIndex.answer, remove, superseded]
    · simp [OperationIndex.answer, remove, Fields.get?_erase_of_ne (Ne.symm same), superseded, same]
  | clear =>
    have superseded : Supersedes key .clear := .clear
    simp [OperationIndex.answer, clear, Fields.get?, superseded]
  | look question =>
    have stays : ¬Supersedes key (.look question) := by rintro ⟨⟩
    simp [OperationIndex.answer, stays]

end

/-! ## What a history tells -/

theorem wellFormed_after (calls : List Call) : (after calls).WellFormed := by
  induction calls using List.reverseRecOn with
  | nil => exact wellFormed_empty
  | append_singleton calls call ih =>
    rw [after_concat]
    exact ih.answer call

/-- An operation was added behind some calls, when its id was free, and no call behind that
    has released it. -/
structure AddedBehind (calls before : List Call) (operation : Operation) (rest : List Call) :
    Prop where
  stands : StandsSince (Releases · operation) calls before (.add operation) rest
  free : (after before).find? operation.operationId = none

theorem find?_after_eq_some_iff {calls : List Call} {id : String} {operation : Operation} :
    (after calls).find? id = some operation ↔
      operation.operationId = id ∧ ∃ before rest, AddedBehind calls before operation rest := by
  have recorded : ∀ calls, (after calls).find? id = some operation ↔
      ∃ before first rest, StandsSince (Releases · operation) calls before first rest ∧
        first = .add operation ∧ operation.operationId = id ∧ (after before).find? id = none := by
    apply iff_standsSince
    · exact nofun
    · intro calls call
      rw [after_concat]
      exact find?_answer_eq_some_iff (wellFormed_after calls)
  rw [recorded]
  constructor
  · rintro ⟨before, _, rest, stands, rfl, rfl, free⟩
    exact ⟨rfl, before, rest, stands, free⟩
  · rintro ⟨rfl, before, rest, stands, free⟩
    exact ⟨before, _, rest, stands, rfl, rfl, free⟩

theorem description?_after_eq_some_iff {calls : List Call} {uri : String}
    {description : ApiDescription} :
    (after calls).description? uri = some description ↔
      FileUri.key description.uri = FileUri.key uri ∧ ∃ before rest,
        StandsSince (Supersedes (FileUri.key uri)) calls before (.addDescription description) rest := by
  have recorded : ∀ calls, (after calls).descriptions.get? (FileUri.key uri) = some description ↔
      ∃ before first rest, StandsSince (Supersedes (FileUri.key uri)) calls before first rest ∧
        first = .addDescription description ∧ FileUri.key description.uri = FileUri.key uri := by
    apply iff_standsSince
    · exact nofun
    · intro calls call
      rw [after_concat]
      exact get?_descriptions_answer_eq_some_iff
  rw [description?, recorded]
  constructor
  · rintro ⟨before, _, rest, stands, rfl, same⟩
    exact ⟨same, before, rest, stands⟩
  · rintro ⟨same, before, rest, stands⟩
    exact ⟨before, _, rest, stands, rfl, same⟩

section

variable {calls before rest : List Call} {operation : Operation}

theorem AddedBehind.find?_middle {middle later : List Call}
    (added : AddedBehind calls before operation (middle ++ later)) :
    (after (before ++ .add operation :: middle)).find? operation.operationId = some operation :=
  find?_after_eq_some_iff.mpr ⟨rfl, before, middle, added.stands.take, added.free⟩

theorem AddedBehind.added_true (added : AddedBehind calls before operation rest) :
    ((after before).answer (.add operation)).2 = .added true := by
  simp [answer, isFree, added.free]

theorem AddedBehind.added_false {middle later : List Call} {other : Operation}
    (added : AddedBehind calls before operation (middle ++ .add other :: later))
    (same : other.operationId = operation.operationId) :
    ((after (before ++ .add operation :: middle)).answer (.add other)).2 = .added false := by
  simp [answer, isFree, same, added.find?_middle]

theorem find?_after_concat_eq_none_iff {id : String}
    (found : (after calls).find? id = some operation) (call : Call) :
    (after (calls ++ [call])).find? id = none ↔ Releases call operation := by
  have next := @find?_answer_eq_some_iff (after calls) (wellFormed_after calls) call id
  rw [after_concat, Option.eq_none_iff_forall_ne_some]
  constructor
  · intro gone
    by_contra stays
    exact gone operation (next.mpr (.inr ⟨found, stays⟩))
  · intro released other again
    rcases next.mp again with ⟨-, -, free⟩ | ⟨same, stays⟩
    · rw [found] at free
      cases free
    · rw [found] at same
      cases same
      exact stays released

end

/-- The number of operations is the number of ids under which one is found. -/
theorem WellFormed.size_eq_ncard {index : OperationIndex} (wellFormed : index.WellFormed) :
    index.size = Set.ncard {id | index.find? id ≠ none} := by
  have ids : {id | index.find? id ≠ none} =
      ((index.operations.map Prod.fst).toFinset : Set String) := by
    ext id
    rw [List.coe_toFinset]
    exact Fields.mem_names_iff.symm
  rw [ids, Set.ncard_coe_finset,
    List.toFinset_card_of_nodup (Fields.nodup_names wellFormed.operations), List.length_map, size]

theorem WellFormed.mem_all_iff {index : OperationIndex} (wellFormed : index.WellFormed)
    {operation : Operation} : operation ∈ index.all ↔ ∃ id, index.find? id = some operation := by
  simp only [all, List.mem_map, find?, Fields.get?_eq_some_iff wellFormed.operations]
  constructor
  · rintro ⟨entry, member, rfl⟩
    exact ⟨entry.1, member⟩
  · rintro ⟨id, member⟩
    exact ⟨(id, operation), member, rfl⟩

/-- What an index answers after some calls, told from the calls. -/
structure Recounts (calls : List Call) : Prop where
  /-- Under an id is the operation of the call that added the id when it was last free. -/
  found : ∀ id operation, (after calls).find? id = some operation ↔
    operation.operationId = id ∧ ∃ before rest, AddedBehind calls before operation rest
  /-- That call was told that the id was free, which it has not been since, -/
  granted : ∀ before operation rest, AddedBehind calls before operation rest →
    ((after before).answer (.add operation)).2 = .added true ∧
      ∀ middle later, rest = middle ++ later →
        (after (before ++ .add operation :: middle)).find? operation.operationId = some operation
  /-- and no other call that added the id was told so. -/
  refused : ∀ before operation middle other later,
    AddedBehind calls before operation (middle ++ .add other :: later) →
      other.operationId = operation.operationId →
        ((after (before ++ .add operation :: middle)).answer (.add other)).2 = .added false
  released : ∀ id operation, (after calls).find? id = some operation → ∀ call,
    (after (calls ++ [call])).find? id = none ↔ Releases call operation
  counted : (after calls).size = Set.ncard {id | (after calls).find? id ≠ none}
  ordered : (after calls).all.Pairwise fun left right => left.operationId < right.operationId
  listed : ∀ operation, operation ∈ (after calls).all ↔ ∃ id, (after calls).find? id = some operation
  /-- Under a uri is the description that was added last under its key, unless it was removed
      since. -/
  described : ∀ uri description, (after calls).description? uri = some description ↔
    FileUri.key description.uri = FileUri.key uri ∧ ∃ before rest,
      StandsSince (Supersedes (FileUri.key uri)) calls before (.addDescription description) rest

/-- Whatever is asked of an index, and in whatever order, what it answers is told by what it
    was asked before. -/
theorem recounts_calls (calls : List Call) : Recounts calls where
  found := fun _ _ => find?_after_eq_some_iff
  granted := by
    intro before operation rest added
    refine ⟨added.added_true, ?_⟩
    rintro middle later rfl
    exact added.find?_middle
  refused := fun _ _ _ _ _ added same => added.added_false same
  released := fun _ _ found call => find?_after_concat_eq_none_iff found call
  counted := (wellFormed_after calls).size_eq_ncard
  ordered := (wellFormed_after calls).pairwise_all
  listed := fun _ => (wellFormed_after calls).mem_all_iff
  described := fun _ _ => description?_after_eq_some_iff

/-- An id is free again when its file is removed under another spelling, and goes to the next
    one that asks. -/
example :
    let first : Operation := { operationId := "x", fileUri := "file:///a", line := 1 }
    let second : Operation := { operationId := "x", fileUri := "file:///b", line := 2 }
    let calls := [Call.add first, .add second, .remove "file://localhost/a", .add second]
    (after (calls.take 2)).find? "x" = some first ∧ (after (calls.take 3)).find? "x" = none ∧
      (after calls).find? "x" = some second := by
  decide +kernel

end ApiWorkflow.OperationIndex
