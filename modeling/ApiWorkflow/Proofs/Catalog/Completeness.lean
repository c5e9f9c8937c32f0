import ApiWorkflow.Proofs.Catalog.Ownership

/-! # Which declared ids are found

An id that several files declare is kept for the first of them only. When that file
is forgotten or read anew without the id, the declarations of the other files, which
were dropped, are not taken up again: the id is declared in the index and yet not
found. This is the only way in which a declared id can be missing.
-/

namespace ApiWorkflow

/-- Every id that a description of the index declares is found. -/
def OperationIndex.Complete (index : OperationIndex) : Prop :=
  ∀ entry ∈ index.descriptions, ∀ operation ∈ entry.2.operations,
    (index.find? operation.operationId).isSome = true

instance (index : OperationIndex) : Decidable index.Complete :=
  inferInstanceAs (Decidable (∀ entry ∈ index.descriptions, ∀ operation ∈ entry.2.operations,
    (index.find? operation.operationId).isSome = true))

namespace Catalog

/-- The second of two files with the same id is left with a declared id that is not
    found once the first file is forgotten. -/
theorem not_complete_after_run :
    ¬∀ (settings : DiscoverySettings) (lifetime : Nat) (run : List (Moment × Request)),
      OnFiles run → (after settings (empty lifetime) run).index.Complete := by
  intro complete
  have incomplete : ¬(after {} (empty 300) [(twins 1 "x", .index "file:///a.json"),
      (twins 1 "x", .index "file:///b.json"),
      (twins 1 "x", .invalidate "file:///a.json")]).index.Complete := by
    decide +kernel
  exact incomplete (complete {} 300 _ (by decide +kernel))

/-- The catalog after some moves. -/
def reached (start : Catalog) (moves : List Move) : Catalog :=
  moves.foldl move start

/-- An id is lost to the description of a uri: it was found for another file, then a move
    on that file took it away. The description was there all the time, and nothing has
    been found under the id since. -/
def Orphaned (start : Catalog) (moves : List Move) (uri id : String) : Prop :=
  ∃ before m after owner, moves = before ++ m :: after ∧
    (reached start before).index.find? id = some owner ∧
    owner.fileUri ≠ uri ∧ FileUri.key m.uri = owner.fileUri ∧
    (∀ later, later <+: m :: after →
      (reached start (before ++ later)).index.descriptions.get? uri =
        (reached start moves).index.descriptions.get? uri) ∧
    ∀ later, later <+: after → (reached start (before ++ m :: later)).index.find? id = none

/-! ## One move -/

theorem isSome_find?_replace {index : OperationIndex} (wellFormed : index.WellFormed) {uri : String}
    (settled : FileUri.key uri = uri) {description : ApiDescription} {operation : Operation}
    (declares : operation ∈ description.operations) :
    ((index.replace uri description).find? operation.operationId).isSome = true := by
  rw [OperationIndex.find?_replace wellFormed settled, Option.isSome_or, Bool.or_eq_true]
  right
  rw [List.find?_isSome]
  exact ⟨operation, declares, beq_self_eq_true _⟩

theorem fileUri_of_filter_eq_none {uri : String} {found : Option Operation} {owner : Operation}
    (owned : found = some owner)
    (gone : (found.filter fun operation => operation.fileUri != uri) = none) :
    owner.fileUri = uri := by
  rw [owned, Option.filter_some] at gone
  split at gone
  · cases gone
  · rename_i same
    simpa using same

/-- What a catalog must have been like before a move on the file of a key, if after the
    move a description is there and an id that it declares is not found: the description
    was there already, and the id was found for that file if it was found at all. -/
def LostAt (catalog : Catalog) (key uri id : String) (description : ApiDescription) : Prop :=
  catalog.index.descriptions.get? uri = some description ∧
    ∀ owner, catalog.index.find? id = some owner → owner.fileUri ≠ uri ∧ key = owner.fileUri

section

variable {catalog : Catalog} {uri : String} {description : ApiDescription} {operation : Operation}

theorem lostAt_of_remove (coherent : catalog.Coherent) {key : String}
    (settled : FileUri.key key = key)
    (there : (catalog.index.remove key).descriptions.get? uri = some description)
    (lost : (catalog.index.remove key).find? operation.operationId = none) :
    LostAt catalog key uri operation.operationId description := by
  rw [OperationIndex.get?_descriptions_remove _ settled] at there
  rw [OperationIndex.find?_remove coherent.wellFormed settled] at lost
  split at there
  · cases there
  · rename_i other
    refine ⟨there, ?_⟩
    intro owner owned
    have same := fileUri_of_filter_eq_none owned lost
    exact ⟨fun clash => other (clash.symm.trans same), same.symm⟩

theorem lostAt_of_indexed (coherent : catalog.Coherent) {now : Moment} {read : String}
    {next : Catalog} {result : Except Error Nat} (settles : Settles read)
    (indexed : Indexed now catalog read next result)
    (there : next.index.descriptions.get? uri = some description)
    (declares : operation ∈ description.operations)
    (lost : next.index.find? operation.operationId = none) :
    LostAt catalog (FileUri.key read) uri operation.operationId description := by
  cases indexed with
  | refused names => exact ⟨there, fun owner owned => nomatch lost.symm.trans owned⟩
  | failed spells unread => exact ⟨there, fun owner owned => nomatch lost.symm.trans owned⟩
  | stored spells found =>
    rename_i key cache new
    have settled := settled_of_spells settles spells
    obtain ⟨-, belongs⟩ := found.belongsTo coherent.cached
    rw [OperationIndex.get?_descriptions_replace _ settled (belongs new rfl)] at there
    split at there
    -- The description was read by this very move, so all that it declares is found.
    · cases there
      have isFound := isSome_find?_replace coherent.wellFormed settled declares
      rw [lost] at isFound
      cases isFound
    · rename_i other
      rw [OperationIndex.find?_replace coherent.wellFormed settled, Option.or_eq_none_iff] at lost
      refine ⟨there, ?_⟩
      intro owner owned
      have same := fileUri_of_filter_eq_none owned lost.1
      refine ⟨fun clash => other (clash.symm.trans same), ?_⟩
      rw [same]
      exact FileUri.key_of_canonical spells

theorem lostAt_of_move (coherent : catalog.Coherent) {m : Move} (settles : Settles m.uri)
    (there : (catalog.move m).index.descriptions.get? uri = some description)
    (declares : operation ∈ description.operations)
    (lost : (catalog.move m).index.find? operation.operationId = none) :
    LostAt catalog (FileUri.key m.uri) uri operation.operationId description := by
  cases m with
  | forget forgotten => exact lostAt_of_remove coherent (settled_key settles) there lost
  | read now read =>
    exact lostAt_of_indexed coherent settles (indexed_indexFile now catalog settles) there declares
      lost

end

/-! ## Whole runs -/

theorem Orphaned.cons {start : Catalog} {m : Move} {moves : List Move} {uri id : String}
    (orphaned : Orphaned (start.move m) moves uri id) : Orphaned start (m :: moves) uri id := by
  obtain ⟨before, lastMove, after, owner, rfl, rest⟩ := orphaned
  exact ⟨m :: before, lastMove, after, owner, rfl, rest⟩

/-- A declared id that is not found was either never found while the description was
    there, or was lost to it. -/
theorem unseen_or_orphaned {start : Catalog} (coherent : start.Coherent) (moves : List Move)
    (settles : ∀ m ∈ moves, Settles m.uri) {uri : String} {description : ApiDescription}
    {operation : Operation}
    (there : (reached start moves).index.descriptions.get? uri = some description)
    (declares : operation ∈ description.operations)
    (lost : (reached start moves).index.find? operation.operationId = none) :
    (∀ later, later <+: moves →
      (reached start later).index.descriptions.get? uri = some description ∧
        (reached start later).index.find? operation.operationId = none) ∨
      Orphaned start moves uri operation.operationId := by
  -- The first move is taken off, so the hypothesis speaks of the catalog behind it.
  induction moves generalizing start with
  | nil =>
    left
    intro later isPrefix
    rw [List.prefix_nil.mp isPrefix]
    exact ⟨there, lost⟩
  | cons m moves ih =>
    have here := settles m List.mem_cons_self
    have next := coherent.move m here
    have others : ∀ m ∈ moves, Settles m.uri :=
      fun other member => settles other (List.mem_cons_of_mem _ member)
    rcases ih next others there lost with unseen | orphaned
    · have now := unseen [] List.nil_prefix
      obtain ⟨before, owners⟩ := lostAt_of_move coherent here now.1 declares now.2
      cases owned : start.index.find? operation.operationId with
      | none =>
        left
        intro later isPrefix
        rcases List.prefix_cons_iff.mp isPrefix with rfl | ⟨rest, rfl, shorter⟩
        · exact ⟨before, owned⟩
        · exact unseen rest shorter
      -- The first move took the id away, and the rest tells that it stayed away.
      | some owner =>
        right
        obtain ⟨other, about⟩ := owners owner owned
        refine ⟨[], m, moves, owner, rfl, owned, other, about, ?_, ?_⟩
        · intro later isPrefix
          rw [there]
          rcases List.prefix_cons_iff.mp isPrefix with rfl | ⟨rest, rfl, shorter⟩
          · exact before
          · exact (unseen rest shorter).1
        · intro later isPrefix
          exact (unseen later isPrefix).2
    · exact .inr orphaned.cons

/-- After every run on `file://` uris, an id that a description of the index declares is
    missing exactly if it was lost to that description. -/
theorem find?_eq_none_iff_orphaned (settings : DiscoverySettings) (lifetime : Nat)
    (run : List (Moment × Request)) (onFiles : OnFiles run) (uri : String)
    (description : ApiDescription) (operation : Operation)
    (there : (uri, description) ∈ (after settings (empty lifetime) run).index.descriptions)
    (declares : operation ∈ description.operations) :
    (after settings (empty lifetime) run).index.find? operation.operationId = none ↔
      Orphaned (empty lifetime) (movesOf settings run) uri operation.operationId := by
  have ordered := (coherent_after settings lifetime onFiles).wellFormed.descriptions
  have found := Fields.get?_of_mem ordered there
  rw [after_eq_foldl] at found ⊢
  constructor
  · intro lost
    have settles : ∀ m ∈ movesOf settings run, Settles m.uri :=
      fun m member => settles_of_hasScheme (hasScheme_of_mem_movesOf onFiles member)
    rcases unseen_or_orphaned (coherent_empty lifetime) _ settles found declares lost with
      unseen | orphaned
    · cases (unseen [] List.nil_prefix).1
    · exact orphaned
  · rintro ⟨before, m, after, owner, split, -, -, -, -, missing⟩
    have lost := missing after (List.prefix_refl after)
    rw [← split] at lost
    exact lost

theorem orphaned_after_twins :
    let run := [(twins 1 "x", Request.index "file:///a.json"),
      (twins 1 "x", .index "file:///b.json"), (twins 1 "x", .invalidate "file:///a.json")]
    let operation : Operation :=
      { operationId := "x", method := "GET", path := "/p", fileUri := "file:///b.json"
        fileName := "b.json" }
    let description : ApiDescription :=
      { uri := "file:///b.json", version := "3", operations := [operation] }
    OnFiles run ∧
      ("file:///b.json", description) ∈ (after {} (empty 300) run).index.descriptions ∧
      operation ∈ description.operations ∧
      Orphaned (empty 300) (movesOf {} run) "file:///b.json" "x" := by
  intro run operation description
  have onFiles : OnFiles run := by decide +kernel
  have there : ("file:///b.json", description) ∈
      (after {} (empty 300) run).index.descriptions := by decide +kernel
  have declares : operation ∈ description.operations := List.mem_singleton_self operation
  have lost : (after {} (empty 300) run).index.find? operation.operationId = none := by
    decide +kernel
  exact ⟨onFiles, there, declares,
    (find?_eq_none_iff_orphaned {} 300 run onFiles _ description operation there declares).mp lost⟩

end Catalog

end ApiWorkflow
