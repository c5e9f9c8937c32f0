import ApiWorkflow.Document.Json
import ApiWorkflow.Proofs.Fields
import ApiWorkflow.Proofs.Json.Text
import ApiWorkflow.Proofs.Json.Tree
import ApiWorkflow.Source.Decoder
import Mathlib.Data.List.Forall2

/-! # Decoders that read what is written

A decoder restores the values that it reads: written as JSON and read once more, such a
value comes out again. `Restores` says so for a decoder and an encoding, and each
combinator of decoders has its lemma. The number is a depth that is enough for the values
that stand for missing fields.
-/

namespace ApiWorkflow.Source

open Json

variable {α β σ : Type}

/-! ## What a computation can end with -/

/-- A reading that can end with a value. -/
def Yields (x : Decode α) (a : α) : Prop :=
  ∃ source left later, (x.run source).run left = .ok (a, later)

theorem yields_pure {a b : α} (yields : Yields (pure a) b) : a = b := by
  obtain ⟨source, left, later, ran⟩ := yields
  cases ran
  rfl

theorem yields_bind {x : Decode α} {f : α → Decode β} {b : β} (yields : Yields (x >>= f) b) :
    ∃ a, Yields x a ∧ Yields (f a) b := by
  obtain ⟨source, left, later, ran⟩ := yields
  rw [ReaderT.run_bind, StateT.run_bind] at ran
  cases first : (x.run source).run left with
  | error fault =>
    rw [first] at ran
    cases ran
  | ok done =>
    rw [first] at ran
    exact ⟨done.1, ⟨source, left, done.2, first⟩, source, done.2, later, ran⟩

theorem yields_map {x : Decode α} {f : α → β} {b : β} (yields : Yields (f <$> x) b) :
    ∃ a, Yields x a ∧ f a = b := by
  rw [← bind_pure_comp] at yields
  obtain ⟨a, first, last⟩ := yields_bind yields
  exact ⟨a, first, yields_pure last⟩

theorem not_yields_malformed {a : α} (yields : Yields malformed a) : False := by
  obtain ⟨source, left, later, ran⟩ := yields
  cases ran

theorem yields_orMalformed {found : Option α} {a : α} (yields : Yields (orMalformed found) a) :
    found = some a := by
  cases found with
  | none => exact (not_yields_malformed yields).elim
  | some b => rw [yields_pure yields]

theorem yields_mapM {f : β → Decode α} {items : List β} {results : List α}
    (yields : Yields (items.mapM f) results) :
    List.Forall₂ (fun item result => Yields (f item) result) items results := by
  induction items generalizing results with
  | nil =>
    rw [List.mapM_nil] at yields
    rw [← yields_pure yields]
    exact .nil
  | cons item items ih =>
    rw [List.mapM_cons] at yields
    obtain ⟨result, first, yields⟩ := yields_bind yields
    obtain ⟨others, rest, last⟩ := yields_bind yields
    rw [← yields_pure last]
    exact .cons first (ih rest)

theorem exists_of_forall₂ {R : β → α → Prop} {items : List β} {results : List α}
    (related : List.Forall₂ R items results) {result : α} (member : result ∈ results) :
    ∃ item ∈ items, R item result := by
  induction related with
  | nil => cases member
  | cons first rest ih =>
    rcases List.mem_cons.mp member with rfl | later
    · exact ⟨_, List.mem_cons_self, first⟩
    · obtain ⟨item, memberItem, holds⟩ := ih later
      exact ⟨item, List.mem_cons_of_mem _ memberItem, holds⟩

theorem mapM_map_eq_pure {γ : Type} {f : γ → Decode β} {g : α → γ} {h : α → β} {items : List α}
    (each : ∀ item ∈ items, f (g item) = pure (h item)) :
    (items.map g).mapM f = pure (items.map h) := by
  induction items with
  | nil => rfl
  | cons item items ih =>
    rw [List.map_cons, List.mapM_cons, each item List.mem_cons_self, pure_bind,
      ih fun other member => each other (List.mem_cons_of_mem _ member), pure_bind, List.map_cons]

theorem resolve_typed {node : Node} (typed : node.Typed) : resolve node = pure node := by
  cases typed <;> rfl

/-! ## Values that are read once more -/

/-- A value that comes out again when it is written and read. -/
def Stable (decoder : Decoder α) (encode : α → Json) (depth : Nat) (a : α) : Prop :=
  (encode a).Exact → decoder depth (encode a).node = pure a

/-- Every value that a decoder reads from a typed tree comes out again. -/
def Restores (decoder : Decoder α) (encode : α → Json) (need : Nat) : Prop :=
  ∀ ⦃depth : Nat⦄ ⦃node : Node⦄ ⦃a : α⦄, need ≤ depth → node.Typed →
    Yields (decoder depth node) a → Stable decoder encode depth a

/-- A decoder that restores what it reads, and so does a value that stands for a missing
    one. -/
structure Codec (decoder : Decoder α) (encode : α → Json) (need : Nat) (missing : α) : Prop where
  restores : Restores decoder encode need
  initial : ∀ depth, need ≤ depth → Stable decoder encode depth missing

theorem Codec.mono {decoder : Decoder α} {encode : α → Json} {need more : Nat} {missing : α}
    (codec : Codec decoder encode need missing) (le : need ≤ more) :
    Codec decoder encode more missing where
  restores := fun _ _ _ enough => codec.restores (le.trans enough)
  initial := fun depth enough => codec.initial depth (le.trans enough)

/-! ## Leaves -/

theorem yields_ofLeaf {read? : Leaf → Option α} {depth : Nat} {node : Node} {a : α}
    (typed : node.Typed) (yields : Yields (ofLeaf read? depth node) a) :
    ∃ leaf, node = .leaf leaf ∧ leaf.Typed ∧ read? leaf = some a := by
  rw [ofLeaf, resolve_typed typed, pure_bind] at yields
  cases typed with
  | leaf typed => exact ⟨_, rfl, typed, yields_orMalformed yields⟩
  | list | dict | cut => exact (not_yields_malformed yields).elim

@[simp]
theorem text_string (depth : Nat) (s : String) :
    text depth (.leaf (.string (some s))) = pure s :=
  rfl

theorem codec_text : Codec text .string 0 "" where
  restores := by
    intro depth node s _ _ _ _
    rw [node_string, text_string]
  initial := by
    intro depth _ _
    rw [node_string, text_string]

theorem isFinite_of_double? {leaf : Leaf} {x : Double} (typed : leaf.Typed)
    (read : leaf.double? = some x) : x.isFinite = true := by
  cases typed with
  | null => cases read
  | bool => cases read
  | string => cases read
  | number isNumber =>
    rename_i value
    match value with
    | none => cases read
    | some (.int i) =>
      cases read
      obtain ⟨above, below⟩ := isNumber _ rfl
      have := show wordBound 63 < wordBound 64 by decide
      exact (Double.sizeLe_ofInt (by omega)).isFinite
    | some (.double x) =>
      cases read
      exact isNumber _ rfl
    | some .null | some (.bool _) | some (.string _) | some (.array _) | some (.object _) =>
      exact (isNumber _ rfl).elim

theorem restores_double : Restores double ofDouble 0 := by
  intro depth node x _ typed yields exact
  obtain ⟨leaf, rfl, typedLeaf, read⟩ := yields_ofLeaf typed yields
  rw [ofDouble, if_pos (isFinite_of_double? typedLeaf read)] at exact ⊢
  rw [node_double (exact x (by simp [doubles]))]
  rfl

theorem fitsWord_of_natural? {leaf : Leaf} {n : Nat} (typed : leaf.Typed)
    (read : leaf.natural? = some n) : FitsWord n := by
  cases typed with
  | null => cases read
  | bool => cases read
  | string => cases read
  | number isNumber =>
    rename_i value
    match value with
    | none => cases read
    | some (.int i) =>
      obtain ⟨above, below⟩ := isNumber _ rfl
      rw [Leaf.natural?] at read
      split at read
      · cases read
        exact ⟨by omega, by omega⟩
      · cases read
    | some (.double _) => cases read
    | some .null | some (.bool _) | some (.string _) | some (.array _) | some (.object _) =>
      exact (isNumber _ rfl).elim

theorem restores_natural : Restores natural (fun n => .int n) 0 := by
  intro depth node n _ typed yields exact
  obtain ⟨leaf, rfl, typedLeaf, read⟩ := yields_ofLeaf typed yields
  obtain ⟨value, written, whole⟩ := node_int n
  rw [written, whole (fitsWord_of_natural? typedLeaf read)]
  simp [natural, ofLeaf, resolve, Leaf.natural?, orMalformed]

/-! ## Values that may be absent -/

/-- Only null is written as null. -/
def KeepsNull (decoder : Decoder α) (encode : α → Json) : Prop :=
  ∀ ⦃depth : Nat⦄ ⦃node : Node⦄ ⦃a : α⦄, node.Typed → node ≠ .leaf .null →
    Yields (decoder depth node) a → encode a ≠ .null

theorem keepsNull_double : KeepsNull double ofDouble := by
  intro depth node x typed _ yields
  obtain ⟨leaf, -, typedLeaf, read⟩ := yields_ofLeaf typed yields
  rw [ofDouble, if_pos (isFinite_of_double? typedLeaf read)]
  simp

theorem optional_null (decoder : Decoder α) (depth : Nat) :
    optional decoder depth (Json.node .null) = pure none :=
  rfl

theorem optional_node (decoder : Decoder α) (depth : Nat) {value : Json} (exact : value.Exact)
    (notNull : value ≠ .null) :
    optional decoder depth value.node = some <$> decoder depth value.node := by
  cases value with
  | null => exact absurd rfl notNull
  | bool b => cases b <;> rfl
  | int i =>
    obtain ⟨value, written, -⟩ := node_int i
    rw [written]
    rfl
  | double x =>
    rw [node_double (exact x (by simp [doubles]))]
    rfl
  | string s =>
    rw [node_string]
    rfl
  | array items => rfl
  | object fields => rfl

theorem yields_optional {decoder : Decoder α} {depth : Nat} {node : Node} {found : Option α}
    (typed : node.Typed) (yields : Yields (optional decoder depth node) found) :
    found = none ∨ ∃ a, found = some a ∧ node ≠ .leaf .null ∧ Yields (decoder depth node) a := by
  rw [optional, resolve_typed typed, pure_bind] at yields
  have present (notNull : node ≠ .leaf .null) (yields : Yields (some <$> decoder depth node) found) :
      ∃ a, found = some a ∧ node ≠ .leaf .null ∧ Yields (decoder depth node) a := by
    obtain ⟨a, read, same⟩ := yields_map yields
    exact ⟨a, same.symm, notNull, read⟩
  cases typed with
  | leaf typed =>
    cases typed with
    | null => exact .inl (yields_pure yields).symm
    | bool => exact .inr (present (by simp) yields)
    | number => exact .inr (present (by simp) yields)
    | string => exact .inr (present (by simp) yields)
  | list => exact .inr (present (by simp) yields)
  | dict => exact .inr (present (by simp) yields)
  | cut => exact .inr (present (by simp) yields)

theorem codec_optional {decoder : Decoder α} {encode : α → Json} {need : Nat}
    (restores : Restores decoder encode need) (keeps : KeepsNull decoder encode) :
    Codec (optional decoder) (ofOption encode) need none where
  restores := by
    intro depth node found enough typed yields exact
    rcases yields_optional typed yields with rfl | ⟨a, rfl, notNull, read⟩
    · exact optional_null decoder depth
    · rw [ofOption] at exact ⊢
      rw [optional_node decoder depth exact (keeps typed notNull read),
        restores enough typed read exact, map_pure]
  initial := fun depth _ _ => optional_null decoder depth

/-! ## Lists -/

theorem yields_listOf {decoder : Decoder α} {depth : Nat} {node : Node} {results : List α}
    (typed : node.Typed) (yields : Yields (listOf decoder depth node) results) :
    ∃ less items, depth = less + 1 ∧ (∀ item ∈ items, item.Typed) ∧
      List.Forall₂ (fun item result => Yields (decoder less item) result) items results := by
  rw [listOf, resolve_typed typed, pure_bind] at yields
  cases typed with
  | leaf typed =>
    cases typed <;> exact (not_yields_malformed yields).elim
  | list typed =>
    cases depth with
    | zero => exact (not_yields_malformed yields).elim
    | succ less => exact ⟨less, _, rfl, typed, yields_mapM yields⟩
  | dict => exact (not_yields_malformed yields).elim
  | cut => exact (not_yields_malformed yields).elim

theorem listOf_node {decoder : Decoder α} {encode : α → Json} {depth : Nat} {results : List α}
    (each : ∀ result ∈ results, decoder depth (encode result).node = pure result) :
    listOf decoder (depth + 1) (Json.ofList encode results).node = pure results := by
  have again : ∀ result ∈ results, decoder depth (encode result).node = pure (id result) := each
  have read := mapM_map_eq_pure again
  rw [List.map_id] at read
  rw [Json.ofList, Json.node, itemNodes_eq, List.map_map]
  exact read

theorem codec_listOf {decoder : Decoder α} {encode : α → Json} {need : Nat}
    (restores : Restores decoder encode need) :
    Codec (listOf decoder) (Json.ofList encode) (need + 1) [] where
  restores := by
    intro depth node results enough typed yields exact
    obtain ⟨less, items, rfl, typedItems, read⟩ := yields_listOf typed yields
    refine listOf_node fun result member => ?_
    obtain ⟨item, memberItem, yieldsItem⟩ := exists_of_forall₂ read member
    exact restores (by omega) (typedItems item memberItem) yieldsItem
      (exact_array.mp exact _ (List.mem_map_of_mem member))
  initial := by
    intro depth enough _
    obtain ⟨less, rfl⟩ : ∃ less, depth = less + 1 := ⟨depth - 1, by omega⟩
    exact listOf_node (by simp)

/-! ## Values of any type -/

theorem allItems_eq_some {values : List (Option Json)} {items : List Json}
    (all : allItems values = some items) : values = items.map some := by
  fun_induction allItems values generalizing items with
  | case1 =>
    cases all
    rfl
  | case2 value values ih =>
    obtain ⟨others, rest, rfl⟩ := Option.map_eq_some_iff.mp all
    rw [ih rest, List.map_cons]
  | case3 => cases all

theorem allItems_map_some (items : List Json) : allItems (items.map some) = some items := by
  induction items with
  | nil => rfl
  | cons item items ih => rw [List.map_cons, allItems, ih, Option.map_some]

theorem allFields_eq_some {found : List (Option String × Option Json)} {fields : List (String × Json)}
    (all : allFields found = some fields) :
    found = fields.map fun (name, value) => (some name, some value) := by
  fun_induction allFields found generalizing fields with
  | case1 =>
    cases all
    rfl
  | case2 name value found ih =>
    obtain ⟨others, rest, rfl⟩ := Option.map_eq_some_iff.mp all
    rw [ih rest, List.map_cons]
  | case3 => cases all

theorem allFields_map_some (fields : List (String × Json)) :
    allFields (fields.map fun (name, value) => (some name, some value)) = some fields := by
  induction fields with
  | nil => rfl
  | cons entry fields ih => rw [List.map_cons, allFields, ih, Option.map_some]

theorem json?_node {leaf : Leaf} {value : Json} (typed : leaf.Typed) (read : leaf.json? = some value)
    (exact : value.Exact) : ∃ again, value.node = .leaf again ∧ again.json? = some value := by
  cases typed with
  | null =>
    cases read
    exact ⟨.null, rfl, rfl⟩
  | bool =>
    rename_i b
    cases read
    cases b <;> exact ⟨_, rfl, rfl⟩
  | string =>
    obtain ⟨s, rfl, rfl⟩ := Option.map_eq_some_iff.mp read
    exact ⟨_, node_string s, rfl⟩
  | number isNumber =>
    have number := isNumber value read
    match value with
    | .int i =>
      obtain ⟨found, written, whole⟩ := node_int i
      exact ⟨_, written, whole number⟩
    | .double x => exact ⟨_, node_double (exact x (by simp [doubles])), rfl⟩
    | .null | .bool _ | .string _ | .array _ | .object _ => exact number.elim

theorem anyValue_leaf (rule : KeyRule) (depth : Nat) (leaf : Leaf) :
    anyValue rule depth (.leaf leaf) = some <$> orMalformed leaf.json? := by
  cases depth <;> rfl

theorem keyOf_string (rule : KeyRule) (depth : Nat) (name : String) :
    keyOf rule (anyValue rule depth) depth (.leaf (.string (some name))) = pure (some name) := by
  cases rule with
  | written => rfl
  | typed => rw [keyOf, anyValue_leaf]; rfl

section AnyValue

variable {rule : KeyRule} {depth : Nat}

/-- Values that come out again at some depth. -/
def Again (rule : KeyRule) (depth : Nat) (value : Json) : Prop :=
  value.Exact → anyValue rule depth value.node = pure (some value)

theorem again_leaf {leaf : Leaf} {value : Json} (typed : leaf.Typed)
    (yields : Yields (anyValue rule depth (.leaf leaf)) (some value)) : Again rule depth value := by
  intro exact
  rw [anyValue_leaf] at yields
  obtain ⟨found, read, same⟩ := yields_map yields
  cases same
  obtain ⟨again, written, back⟩ := json?_node typed (yields_orMalformed read) exact
  rw [written, anyValue_leaf, back]
  rfl

theorem again_array {items : List Json} (again : ∀ item ∈ items, Again rule depth item) :
    Again rule (depth + 1) (.array items) := by
  intro exact
  have each : ∀ item ∈ items, anyValue rule depth item.node = pure (some item) :=
    fun item member => again item member (exact_array.mp exact item member)
  have node : (Json.array items).node = .list none (items.map Json.node) := by
    rw [Json.node, itemNodes_eq]
  have read : anyValue rule (depth + 1) (.list none (items.map Json.node)) =
      (items.map Json.node).mapM (anyValue rule depth) >>= fun values =>
        pure ((allItems values).map .array) := rfl
  rw [node, read, mapM_map_eq_pure each, pure_bind, allItems_map_some, Option.map_some]

theorem again_object {fields : Fields Json} (ordered : fields.Ordered)
    (again : ∀ entry ∈ fields, Again rule depth entry.2) :
    Again rule (depth + 1) (.object fields) := by
  intro exact
  let readEntry (entry : Node × Node) : Decode (Option String × Option Json) := do
    let name ← keyOf rule (anyValue rule depth) depth entry.1
    let value ← anyValue rule depth entry.2
    pure (name, value)
  have each : ∀ entry ∈ fields, readEntry (.leaf (.string (some entry.1)), entry.2.node) =
      pure (some entry.1, some entry.2) := by
    intro entry member
    simp only [readEntry]
    rw [keyOf_string, pure_bind, again entry member (exact_object.mp exact entry member), pure_bind]
  have node : (Json.object fields).node =
      .dict none (fields.map fun entry => (.leaf (.string (some entry.1)), entry.2.node)) := by
    rw [Json.node, entryNodes_eq]
  have read (entries : List (Node × Node)) : anyValue rule (depth + 1) (.dict none entries) =
      entries.mapM readEntry >>= fun found =>
        pure ((allFields found).map fun fields => .object (Fields.ofList fields)) := rfl
  rw [node, read, mapM_map_eq_pure each, pure_bind, allFields_map_some, Option.map_some,
    Fields.ofList_eq_self ordered]

theorem yields_anyValue_list {tag : Option String} {nodes : List Node} {value : Json}
    (yields : Yields (anyValue rule depth (.list tag nodes)) (some value)) :
    ∃ less items, depth = less + 1 ∧ value = .array items ∧
      ∀ item ∈ items, ∃ node ∈ nodes, Yields (anyValue rule less node) (some item) := by
  cases depth with
  | zero => exact (not_yields_malformed yields).elim
  | succ less =>
    rw [anyValue] at yields
    change Yields (if _ then _ else _) _ at yields
    split at yields
    · exact (not_yields_malformed yields).elim
    · obtain ⟨values, each, last⟩ := yields_bind yields
      obtain ⟨items, all, rfl⟩ := Option.map_eq_some_iff.mp (yields_pure last)
      have related := yields_mapM each
      rw [allItems_eq_some all] at related
      exact ⟨less, items, rfl, rfl, fun item member =>
        exists_of_forall₂ related (List.mem_map_of_mem member)⟩

theorem yields_anyValue_dict {tag : Option String} {entries : List (Node × Node)} {value : Json}
    (yields : Yields (anyValue rule depth (.dict tag entries)) (some value)) :
    ∃ less fields, depth = less + 1 ∧ value = .object (Fields.ofList fields) ∧
      ∀ field ∈ fields, ∃ entry ∈ entries, Yields (anyValue rule less entry.2) (some field.2) := by
  cases depth with
  | zero => exact (not_yields_malformed yields).elim
  | succ less =>
    rw [anyValue] at yields
    change Yields (if _ then _ else _) _ at yields
    split at yields
    · exact (not_yields_malformed yields).elim
    · obtain ⟨found, each, last⟩ := yields_bind yields
      obtain ⟨fields, all, rfl⟩ := Option.map_eq_some_iff.mp (yields_pure last)
      have related := yields_mapM each
      rw [allFields_eq_some all] at related
      refine ⟨less, fields, rfl, rfl, fun field member => ?_⟩
      obtain ⟨entry, memberEntry, read⟩ := exists_of_forall₂ related (List.mem_map_of_mem member)
      obtain ⟨name, -, read⟩ := yields_bind read
      obtain ⟨value, readValue, read⟩ := yields_bind read
      cases yields_pure read
      exact ⟨entry, memberEntry, readValue⟩

/-- A value of any type comes out again at the depth at which it was read. -/
theorem again_of_yields {node : Node} {value : Json} (typed : node.Typed)
    (yields : Yields (anyValue rule depth node) (some value)) : Again rule depth value := by
  induction depth generalizing node value with
  | zero =>
    cases typed with
    | leaf typed => exact again_leaf typed yields
    | list | dict | cut => exact (not_yields_malformed yields).elim
  | succ depth ih =>
    cases typed with
    | leaf typed => exact again_leaf typed yields
    | cut => exact (not_yields_malformed yields).elim
    | list typed =>
      obtain ⟨less, items, same, rfl, each⟩ := yields_anyValue_list yields
      cases same
      refine again_array fun item member => ?_
      obtain ⟨node, memberNode, read⟩ := each item member
      exact ih (typed node memberNode) read
    | dict keys values =>
      obtain ⟨less, fields, same, rfl, each⟩ := yields_anyValue_dict yields
      cases same
      refine again_object (Fields.ordered_ofList fields) fun field member => ?_
      obtain ⟨entry, memberEntry, read⟩ := each field (Fields.mem_ofList member)
      exact ih (values entry memberEntry) read

theorem ne_null_of_yields {node : Node} {value : Json} (typed : node.Typed)
    (notNull : node ≠ .leaf .null) (yields : Yields (anyValue rule depth node) (some value)) :
    value ≠ .null := by
  cases typed with
  | leaf typed =>
    rw [anyValue_leaf] at yields
    obtain ⟨found, read, same⟩ := yields_map yields
    cases same
    have read := yields_orMalformed read
    cases typed with
    | null => exact absurd rfl notNull
    | bool =>
      cases read
      simp
    | number isNumber =>
      rintro rfl
      exact isNumber _ read
    | string =>
      obtain ⟨s, -, rfl⟩ := Option.map_eq_some_iff.mp read
      simp
  | list =>
    obtain ⟨less, items, -, rfl, -⟩ := yields_anyValue_list yields
    simp
  | dict =>
    obtain ⟨less, fields, -, rfl, -⟩ := yields_anyValue_dict yields
    simp
  | cut => cases depth <;> exact (not_yields_malformed yields).elim

end AnyValue

theorem yields_opaqueValue {depth : Nat} {node : Node} {value : Json}
    (yields : Yields (opaqueValue depth node) value) :
    Yields (anyValue .written depth node) (some value) := by
  obtain ⟨found, read, last⟩ := yields_bind yields
  rwa [yields_orMalformed last] at read

theorem codec_opaqueValue : Codec opaqueValue id 0 .null where
  restores := by
    intro depth node value _ typed yields exact
    rw [opaqueValue, id, again_of_yields typed (yields_opaqueValue yields) exact, pure_bind]
    rfl
  initial := by
    intro depth _ _
    cases depth <;> rfl

theorem keepsNull_opaqueValue : KeepsNull opaqueValue id :=
  fun _ _ _ typed notNull yields => ne_null_of_yields typed notNull (yields_opaqueValue yields)

/-! ## Dictionaries -/

theorem yields_entriesOf {entry : Nat → Node → Node → Decode α} {depth : Nat} {node : Node}
    {results : List α} (typed : node.Typed) (yields : Yields (entriesOf entry depth node) results) :
    ∃ less entries, depth = less + 1 ∧ (∀ pair ∈ entries, pair.2.Typed) ∧
      List.Forall₂ (fun (pair : Node × Node) result => Yields (entry less pair.1 pair.2) result)
        entries results := by
  rw [entriesOf, resolve_typed typed, pure_bind] at yields
  cases typed with
  | leaf typed =>
    cases typed <;> exact (not_yields_malformed yields).elim
  | dict keys values =>
    cases depth with
    | zero => exact (not_yields_malformed yields).elim
    | succ less => exact ⟨less, _, rfl, values, yields_mapM yields⟩
  | list => exact (not_yields_malformed yields).elim
  | cut => exact (not_yields_malformed yields).elim

theorem fieldsOf_node {depth : Nat} {fields : Fields Json} (ordered : fields.Ordered)
    (each : ∀ field ∈ fields, opaqueValue depth field.2.node = pure field.2) :
    fieldsOf opaqueValue (depth + 1) (Json.object fields).node = pure fields := by
  let readEntry (entry : Node × Node) : Decode (String × Json) := do
    let name ← text depth entry.1
    let value ← opaqueValue depth entry.2
    pure (name, value)
  have again : ∀ field ∈ fields,
      readEntry (.leaf (.string (some field.1)), field.2.node) = pure (id field) := by
    intro field member
    simp only [readEntry]
    rw [text_string, pure_bind, each field member, pure_bind]
    rfl
  have node : (Json.object fields).node =
      .dict none (fields.map fun field => (.leaf (.string (some field.1)), field.2.node)) := by
    rw [Json.node, entryNodes_eq]
  have read (entries : List (Node × Node)) : fieldsOf opaqueValue (depth + 1) (.dict none entries) =
      entries.mapM readEntry >>= fun fields => pure (Fields.ofList fields) := rfl
  rw [node, read, mapM_map_eq_pure again, pure_bind, List.map_id, Fields.ofList_eq_self ordered]

theorem codec_fieldsOf : Codec (fieldsOf opaqueValue) .object 1 [] where
  restores := by
    intro depth node fields enough typed yields exact
    obtain ⟨found, read, last⟩ := yields_bind yields
    cases yields_pure last
    obtain ⟨less, entries, rfl, typedValues, related⟩ := yields_entriesOf typed read
    refine fieldsOf_node (Fields.ordered_ofList found) fun field member => ?_
    obtain ⟨entry, memberEntry, read⟩ := exists_of_forall₂ related (Fields.mem_ofList member)
    obtain ⟨name, -, read⟩ := yields_bind read
    obtain ⟨value, readValue, read⟩ := yields_bind read
    cases yields_pure read
    exact codec_opaqueValue.restores (by omega) (typedValues entry memberEntry) readValue
      (exact_object.mp exact _ member)
  initial := by
    intro depth enough _
    obtain ⟨less, rfl⟩ : ∃ less, depth = less + 1 := ⟨depth - 1, by omega⟩
    exact fieldsOf_node Fields.ordered_nil (by simp)

end ApiWorkflow.Source
